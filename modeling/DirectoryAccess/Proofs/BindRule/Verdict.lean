import DirectoryAccess.Proofs.BindRule.Rendering
import DirectoryAccess.Proofs.Value.Shape

/-!
# The verdict on a rule, part by part

The parts of a rule are the rules that stand in it, each found by the positions
of the operands on the way to it.  The verdict is good exactly if nothing is
wrong at any part.  What may be wrong there is a matter of the part and of the
position of its negations, never of parentheses.
-/

namespace DirectoryAccess

namespace BindRule

def parts : BindRule → List BindRule
  | condition _ => []
  | and os _ => os
  | or os _ => os
  | not o => [o]

/-- The part to which positions lead from the rule, the first operand being at position zero. -/
def part? (r : BindRule) : List Nat → Option BindRule
  | [] => some r
  | i :: path => r.parts[i]?.bind fun o => o.part? path

theorem part?_cons_eq_some_iff {r s : BindRule} {i : Nat} {path : List Nat} :
    r.part? (i :: path) = some s ↔ ∃ o, r.parts[i]? = some o ∧ o.part? path = some s := by
  rw [part?, Option.bind_eq_some_iff]

theorem part?_concat_eq_some_iff {r s : BindRule} {i : Nat} {path : List Nat} :
    r.part? (path ++ [i]) = some s ↔ ∃ o, r.part? path = some o ∧ o.parts[i]? = some s := by
  induction path generalizing r with
  | nil => simp [part?]
  | cons j path ih =>
      simp only [List.cons_append, part?_cons_eq_some_iff, ih]
      constructor
      · rintro ⟨o, ho, p, hp, hs⟩
        exact ⟨p, ⟨o, ho, hp⟩, hs⟩
      · rintro ⟨p, ⟨o, ho, hp⟩, hs⟩
        exact ⟨o, ho, p, hp, hs⟩

mutual

/-- What holds of every rule below which it holds, holds of all rules. -/
theorem induction_parts {P : BindRule → Prop} (step : ∀ r, (∀ o ∈ r.parts, P o) → P r) :
    ∀ r : BindRule, P r
  | condition c => step (condition c) fun o ho => by cases ho
  | and os p => step (and os p) (induction_operands step os)
  | or os p => step (or os p) (induction_operands step os)
  | not o => step (not o) fun o' ho' => List.mem_singleton.1 ho' ▸ induction_parts step o

theorem induction_operands {P : BindRule → Prop} (step : ∀ r, (∀ o ∈ r.parts, P o) → P r) :
    ∀ rs : List BindRule, ∀ r ∈ rs, P r
  | [] => fun r hr => by cases hr
  | r :: rs => List.forall_mem_cons.2 ⟨induction_parts step r, induction_operands step rs⟩

end

/-- What is wrong at a rule itself, the rules below left aside. -/
def ownFaults : BindRule → List Error
  | condition c => c.faults
  | and os _ =>
      finding os.isEmpty .emptyAnd ++ finding ((os.head?.map isNot).getD false) .firstNegated
  | or os _ => finding os.isEmpty .emptyOr ++ finding (os.any isNot) .notInOr
  | not o => finding o.isNot .notWrapsNot

theorem faults_eq (r : BindRule) : r.faults = r.ownFaults ++ faultsOfAll r.parts := by
  cases r <;> simp [faults, ownFaults, parts, faultsOfAll]

theorem faultsOfAll_eq_flatten (rs : List BindRule) : faultsOfAll rs = (rs.map faults).flatten := by
  induction rs with
  | nil => rfl
  | cons r rs ih => rw [faultsOfAll, ih, List.map_cons, List.flatten_cons]

theorem faultsOfAll_eq_nil_iff {rs : List BindRule} :
    faultsOfAll rs = [] ↔ ∀ r ∈ rs, r.faults = [] := by
  rw [faultsOfAll_eq_flatten, List.flatten_eq_nil_iff, List.forall_mem_map]

/-- Nothing is wrong inside a rule exactly if nothing is wrong at any part of it. -/
theorem faults_eq_nil_iff (r : BindRule) :
    r.faults = [] ↔ ∀ path s, r.part? path = some s → s.ownFaults = [] := by
  induction r using induction_parts with
  | step r ih =>
      rw [faults_eq, List.append_eq_nil_iff, faultsOfAll_eq_nil_iff]
      constructor
      · rintro ⟨hown, hparts⟩ path s hs
        cases path with
        | nil =>
            cases hs
            exact hown
        | cons i path =>
            obtain ⟨o, ho, hs⟩ := part?_cons_eq_some_iff.1 hs
            have hmem := List.mem_of_getElem? ho
            exact (ih o hmem).1 (hparts o hmem) path s hs
      · intro hall
        refine ⟨hall [] r rfl, fun o ho => (ih o ho).2 fun path s hs => ?_⟩
        obtain ⟨i, hi⟩ := List.mem_iff_getElem?.1 ho
        exact hall (i :: path) s (part?_cons_eq_some_iff.2 ⟨o, hi, hs⟩)

theorem ownFaults_condition_eq_nil_iff {c : Condition} :
    (condition c).ownFaults = [] ↔
      c.keyword.permits c.op = true ∧ c.value.SuitsBind c.keyword := by
  rw [ownFaults, Condition.faults, Value.SuitsBind]
  cases c.keyword.permits c.op <;> cases c.value.fitsBind c.keyword <;>
    cases c.value.isEmpty <;> simp

theorem ownFaults_and_eq_nil_iff {os : List BindRule} {p : Bool} :
    (and os p).ownFaults = [] ↔ os ≠ [] ∧ ∀ o, os[0]? = some o → o.isNot = false := by
  cases os with
  | nil => simp [ownFaults, finding]
  | cons o os => simp [ownFaults, finding_eq_nil_iff]

theorem ownFaults_or_eq_nil_iff {os : List BindRule} {p : Bool} :
    (or os p).ownFaults = [] ↔ os ≠ [] ∧ ∀ o ∈ os, o.isNot = false := by
  simp [ownFaults, finding_eq_nil_iff]

theorem ownFaults_not_eq_nil_iff {o : BindRule} : (not o).ownFaults = [] ↔ o.isNot = false :=
  finding_eq_nil_iff

/--
Every condition is one that its keyword allows, no group is empty, and a negation stands behind an
`AND`, where it negates no other.
-/
structure IsInOrder (r : BindRule) : Prop where
  conditions : ∀ path c, r.part? path = some (condition c) →
    c.keyword.permits c.op = true ∧ c.value.SuitsBind c.keyword
  conjunctions : ∀ path os p, r.part? path = some (and os p) → os ≠ []
  disjunctions : ∀ path os p, r.part? path = some (or os p) → os ≠ []
  negations : ∀ path o, r.part? path = some (not o) → o.isNot = false ∧
    ∃ front i os p, path = front ++ [i + 1] ∧ r.part? front = some (and os p)

/-- Where nothing is wrong at the part around it, a negation is a later operand of an `AND`. -/
theorem exists_and_of_part {s o : BindRule} {i : Nat} (hs : s.ownFaults = [])
    (ho : s.parts[i]? = some (not o)) : ∃ j os p, i = j + 1 ∧ s = and os p := by
  -- Every other place around a negation is one that its rule reports.
  cases s with
  | condition c => cases ho
  | and os p =>
      cases i with
      | zero => cases (ownFaults_and_eq_nil_iff.1 hs).2 _ ho
      | succ j => exact ⟨j, os, p, rfl, rfl⟩
  | or os p => cases (ownFaults_or_eq_nil_iff.1 hs).2 _ (List.mem_of_getElem? ho)
  | not o' =>
      have hmem := List.mem_singleton.1 (List.mem_of_getElem? ho)
      rw [ownFaults_not_eq_nil_iff, ← hmem] at hs
      cases hs

theorem isInOrder_of_ownFaults {r : BindRule} (hroot : r.isNot = false)
    (h : ∀ path s, r.part? path = some s → s.ownFaults = []) : r.IsInOrder := by
  constructor
  case conditions => exact fun path c hc => ownFaults_condition_eq_nil_iff.1 (h path _ hc)
  case conjunctions => exact fun path os p ho => (ownFaults_and_eq_nil_iff.1 (h path _ ho)).1
  case disjunctions => exact fun path os p ho => (ownFaults_or_eq_nil_iff.1 (h path _ ho)).1
  case negations =>
    intro path o ho
    refine ⟨ownFaults_not_eq_nil_iff.1 (h path _ ho), ?_⟩
    rcases List.eq_nil_or_concat' path with rfl | ⟨front, i, rfl⟩
    · cases ho
      cases hroot
    · obtain ⟨s, hs, ho⟩ := part?_concat_eq_some_iff.1 ho
      obtain ⟨j, os, p, rfl, rfl⟩ := exists_and_of_part (h front s hs) ho
      exact ⟨front, j, os, p, rfl, hs⟩

theorem IsInOrder.isNot {r : BindRule} (h : r.IsInOrder) : r.isNot = false := by
  cases r with
  | not o =>
      obtain ⟨-, front, i, os, p, hpath, -⟩ := h.negations [] o rfl
      simp at hpath
  | _ => rfl

/-- A negation below a part of a rule in order is no first operand, and the part is an `AND`. -/
theorem IsInOrder.isNot_part {r s o : BindRule} {path : List Nat} {i : Nat} (h : r.IsInOrder)
    (hs : r.part? path = some s) (ho : s.parts[i]? = some o)
    (hplace : i = 0 ∨ ∀ os p, s ≠ and os p) : o.isNot = false := by
  cases o with
  | not o =>
      have hpart := part?_concat_eq_some_iff.2 ⟨s, hs, ho⟩
      obtain ⟨-, front, j, os, p, hpath, hfront⟩ := h.negations _ o hpart
      obtain ⟨rfl, hlast⟩ := List.append_inj' hpath rfl
      rw [hs] at hfront
      cases hfront
      rcases hplace with rfl | hplace
      · cases hlast
      · exact absurd rfl (hplace os p)
  | _ => rfl

theorem IsInOrder.ownFaults {r : BindRule} (h : r.IsInOrder) {path : List Nat} {s : BindRule}
    (hs : r.part? path = some s) : s.ownFaults = [] := by
  cases s with
  | condition c => exact ownFaults_condition_eq_nil_iff.2 (h.conditions path c hs)
  | and os p =>
      refine ownFaults_and_eq_nil_iff.2 ⟨h.conjunctions path os p hs, fun o ho => ?_⟩
      exact h.isNot_part hs ho (Or.inl rfl)
  | or os p =>
      refine ownFaults_or_eq_nil_iff.2 ⟨h.disjunctions path os p hs, fun o ho => ?_⟩
      obtain ⟨i, hi⟩ := List.mem_iff_getElem?.1 ho
      exact h.isNot_part hs hi (Or.inr fun _ _ => BindRule.noConfusion)
  | not o => exact ownFaults_not_eq_nil_iff.2 (h.negations path o hs).1

theorem check_eq_ok_iff_isInOrder {r : BindRule} : r.check = .ok () ↔ r.IsInOrder := by
  rw [check_eq_ok_iff, faults_eq_nil_iff]
  constructor
  · rintro ⟨hroot, hparts⟩
    exact isInOrder_of_ownFaults hroot hparts
  · intro h
    exact ⟨h.isNot, fun path s hs => h.ownFaults hs⟩

/-- The change of a rule that turns its own parentheses on or off; a negation has none. -/
def flip : BindRule → BindRule
  | condition c => condition { c with parenthesized := !c.parenthesized }
  | and os p => and os !p
  | or os p => or os !p
  | not o => not o

def modifyPart (i : Nat) (f : BindRule → BindRule) : BindRule → BindRule
  | condition c => condition c
  | and os p => and (os.modify i f) p
  | or os p => or (os.modify i f) p
  | not o => not (if i = 0 then f o else o)

/-- Turns the parentheses on or off at the part to which positions lead. -/
def flipAt : List Nat → BindRule → BindRule
  | [], r => r.flip
  | i :: path, r => r.modifyPart i (flipAt path)

/-- The verdict cannot tell the rules apart. -/
structure IsJudgedAs (r s : BindRule) : Prop where
  isNot : r.isNot = s.isNot
  faults : r.faults = s.faults

theorem IsJudgedAs.check {r s : BindRule} (h : r.IsJudgedAs s) : r.check = s.check := by
  rw [BindRule.check, BindRule.check, h.isNot, h.faults]

theorem IsJudgedAs.negated {r s : BindRule} (h : r.IsJudgedAs s) :
    (not r).IsJudgedAs (not s) := by
  refine ⟨rfl, ?_⟩
  rw [BindRule.faults, BindRule.faults, h.isNot, h.faults]

theorem isJudgedAs_flip (r : BindRule) : r.flip.IsJudgedAs r := by
  constructor <;> cases r <;> rfl

theorem isJudgedAs_inParens : ∀ r : BindRule, r.inParens.IsJudgedAs r
  | condition _ => ⟨rfl, rfl⟩
  | and _ _ => ⟨rfl, rfl⟩
  | or _ _ => ⟨rfl, rfl⟩
  | not o => (isJudgedAs_inParens o).negated

theorem map_modify_of_eq {α β : Type} {f : α → α} {g : α → β} (h : ∀ a, g (f a) = g a)
    (as : List α) (i : Nat) : (as.modify i f).map g = as.map g := by
  induction as generalizing i with
  | nil => cases i <;> rfl
  | cons a as ih =>
      cases i with
      | zero => rw [List.modify_zero_cons, List.map_cons, List.map_cons, h]
      | succ i => rw [List.modify_succ_cons, List.map_cons, List.map_cons, ih]

/-- Of the rules right below it, a rule judges what is wrong in them and which are negations. -/
theorem isJudgedAs_modifyPart {f : BindRule → BindRule} (hf : ∀ r, (f r).IsJudgedAs r)
    (r : BindRule) (i : Nat) : (r.modifyPart i f).IsJudgedAs r := by
  have hgroup (os : List BindRule) (p : Bool) :
      (and (os.modify i f) p).faults = (and os p).faults ∧
        (or (os.modify i f) p).faults = (or os p).faults := by
    have hnots := map_modify_of_eq (fun o => (hf o).isNot) os i
    have hempty : (os.modify i f).isEmpty = os.isEmpty := by
      rw [← List.isEmpty_map (f := isNot), hnots, List.isEmpty_map]
    have hhead : (os.modify i f).head?.map isNot = os.head?.map isNot := by
      rw [← List.head?_map, hnots, List.head?_map]
    have hany : (os.modify i f).any isNot = os.any isNot := by
      simpa only [List.any_map, Function.id_comp] using congrArg (List.any · id) hnots
    have hfaults : faultsOfAll (os.modify i f) = faultsOfAll os := by
      rw [faultsOfAll_eq_flatten, map_modify_of_eq (fun o => (hf o).faults),
        faultsOfAll_eq_flatten]
    simp only [faults, hempty, hhead, hany, hfaults, and_self]
  cases r with
  | condition c => exact ⟨rfl, rfl⟩
  | and os p => exact ⟨rfl, (hgroup os p).1⟩
  | or os p => exact ⟨rfl, (hgroup os p).2⟩
  | not o =>
      rw [modifyPart]
      split
      · exact (hf o).negated
      · exact ⟨rfl, rfl⟩

theorem isJudgedAs_flipAt (path : List Nat) : ∀ r : BindRule, (flipAt path r).IsJudgedAs r := by
  induction path with
  | nil => exact isJudgedAs_flip
  | cons i path ih => exact fun r => isJudgedAs_modifyPart ih r i

/--
The verdict on a rule is good exactly if the rule is in order part by part, and no parentheses
anywhere in the rule change the verdict.
-/
theorem verdict_is_exact (r : BindRule) :
    (r.check = .ok () ↔ r.IsInOrder) ∧ r.inParens.check = r.check ∧
      ∀ path, (flipAt path r).check = r.check :=
  ⟨check_eq_ok_iff_isInOrder, (isJudgedAs_inParens r).check,
    fun path => (isJudgedAs_flipAt path r).check⟩

end BindRule

end DirectoryAccess
