import DirectoryAccess.Proofs.BindRule.Pieces

/-!
# Written rules keep their meaning

A rule whose values read back as themselves is read back in its normal form:
every group below the root carries its parentheses, and a group of one operand
is that operand.  The normal form has the same truth value as the rule, whatever
the conditions hold.
-/

namespace DirectoryAccess

namespace BindRule

/-- A group of operands; one operand alone takes the parentheses of its group. -/
def group (build : List BindRule → Bool → BindRule) (written : Bool) : List BindRule → BindRule
  | [o] => if written then o.inParens else o
  | os => build os written

mutual

/-- The form in which a written rule is read back, given whether it stands below another one. -/
def normal (below : Bool) : BindRule → BindRule
  | condition c => condition c
  | and os p => group and (p || below) (normals os)
  | or os p => group or (p || below) (normals os)
  | not o => not (normal true o)

def normals : List BindRule → List BindRule
  | [] => []
  | r :: rs => normal true r :: normals rs

end

section Truth

variable (σ : BindKeyword → Operator → Value → Bool)

mutual

/-- The truth value of a rule, given those of its comparisons. -/
def holds : BindRule → Bool
  | condition c => σ c.keyword c.op c.value
  | and os _ => allHold os
  | or os _ => anyHolds os
  | not o => !holds o

def allHold : List BindRule → Bool
  | [] => true
  | r :: rs => holds r && allHold rs

def anyHolds : List BindRule → Bool
  | [] => false
  | r :: rs => holds r || anyHolds rs

end

theorem holds_inParens : ∀ r : BindRule, r.inParens.holds σ = r.holds σ
  | condition c => by simp [inParens, holds]
  | not o => by rw [inParens, holds, holds, holds_inParens o]
  | and os p => by simp [inParens, holds]
  | or os p => by simp [inParens, holds]

theorem holds_group_and (written : Bool) (os : List BindRule) :
    (group and written os).holds σ = allHold σ os := by
  match os with
  | [] => rfl
  | [o] => cases written <;> simp [group, holds_inParens, allHold]
  | o :: o' :: os => rfl

theorem holds_group_or (written : Bool) (os : List BindRule) :
    (group or written os).holds σ = anyHolds σ os := by
  match os with
  | [] => rfl
  | [o] => cases written <;> simp [group, holds_inParens, anyHolds]
  | o :: o' :: os => rfl

mutual

/-- The normal form of a rule holds where the rule holds. -/
theorem holds_normal (below : Bool) : ∀ r : BindRule, (r.normal below).holds σ = r.holds σ
  | condition c => rfl
  | and os p => by rw [normal, holds_group_and, allHold_normals os, holds]
  | or os p => by rw [normal, holds_group_or, anyHolds_normals os, holds]
  | not o => by rw [normal, holds, holds, holds_normal true o]

theorem allHold_normals : ∀ rs : List BindRule, allHold σ (normals rs) = allHold σ rs
  | [] => rfl
  | r :: rs => by rw [normals, allHold, allHold, holds_normal true r, allHold_normals rs]

theorem anyHolds_normals : ∀ rs : List BindRule, anyHolds σ (normals rs) = anyHolds σ rs
  | [] => rfl
  | r :: rs => by rw [normals, anyHolds, anyHolds, holds_normal true r, anyHolds_normals rs]

end

end Truth

theorem inParens_group {build : List BindRule → Bool → BindRule}
    (hbuild : ∀ os, (build os false).inParens = build os true) (os : List BindRule) :
    (group build false os).inParens = group build true os := by
  match os with
  | [] => exact hbuild []
  | [o] => rfl
  | o :: o' :: os => exact hbuild (o :: o' :: os)

def spelled (ps : List Piece) : List BindToken :=
  ps.flatMap Piece.tokens

theorem spelled_cons (p : Piece) (ps : List Piece) : spelled (p :: ps) = p.tokens ++ spelled ps :=
  List.flatMap_cons

theorem spelled_append (ps qs : List Piece) : spelled (ps ++ qs) = spelled ps ++ spelled qs :=
  List.flatMap_append

theorem isOperand_enclosed {d : Nat} {ps : List Piece} {r : BindRule}
    (h : ∀ e, d ≤ e → IsRule e (spelled ps) r) :
    ∀ e, d + 1 ≤ e → IsOperand e (spelled (Piece.enclosed true ps)) r.inParens := by
  intro e he
  obtain ⟨e, rfl⟩ := Nat.exists_eq_add_of_le' he
  have henclosed : Enclosed (IsOperand (e + d)) (spelled (Piece.enclosed true ps)) r.inParens := by
    rw [Piece.enclosed, if_pos rfl, List.cons_append, spelled_cons, spelled_append]
    exact .intro rfl rfl (h (e + d) (Nat.le_add_left d e))
  exact Or.inr henclosed

/-- What pieces derive as a level, they derive as an operand or a rule between parentheses. -/
theorem derives_group {build : List BindRule → Bool → BindRule}
    (hbuild : ∀ os, (build os false).inParens = build os true) {d : Nat} {ps : List Piece}
    {os : List BindRule} (h : ∀ e, d ≤ e → IsRule e (spelled ps) (group build false os))
    (p : Bool) :
    ∀ e, d + 1 ≤ e →
      IsOperand e (spelled (Piece.enclosed (p || true) ps)) (group build (p || true) os) ∧
        IsRule e (spelled (Piece.enclosed (p || false) ps)) (group build (p || false) os) := by
  intro e he
  have henclosed := isOperand_enclosed h e he
  rw [inParens_group hbuild] at henclosed
  rw [Bool.or_true, Bool.or_false]
  refine ⟨henclosed, ?_⟩
  cases p with
  | false => exact h e (Nat.le_of_succ_le he)
  | true => exact .single henclosed

theorem derives_condition {c : Condition}
    (hread : Value.parseBind c.keyword c.value.text = .ok c.value) :
    ∀ e, 1 ≤ e → IsOperand e (spelled ((condition c).pieces true)) (condition c) := by
  obtain ⟨k, op, v, written⟩ := c
  have hcondition : IsCondition (spelled [.condition ⟨k, op, v, written⟩])
      (condition (.make k op v)) := by
    refine .intro rfl rfl (List.cons_ne_nil _ _) ?_ k.parse_name ?_
    · simp [BindToken.isValue]
    · simpa [spell, Text.join] using hread
  have hrule (e : Nat) (_ : 0 ≤ e) : IsRule e (spelled [.condition ⟨k, op, v, written⟩])
      (condition (.make k op v)) :=
    .single (.of_condition hcondition)
  intro e he
  cases written with
  | false => exact .of_condition hcondition
  | true => exact isOperand_enclosed hrule e he

theorem level_conjuncts {Operand : List BindToken → BindRule → Prop} {ts us : List BindToken}
    {r : BindRule} {rs : List BindRule} (hr : Operand ts r) (hrs : Conjuncts Operand us rs) :
    Level Operand (ts ++ us) (group and false (r :: rs)) := by
  cases rs with
  | nil =>
      cases hrs
      rw [List.append_nil]
      exact .single hr
  | cons r' rs => exact .conjunction hr hrs (List.cons_ne_nil r' rs)

theorem level_alternatives {Operand : List BindToken → BindRule → Prop} {ts us : List BindToken}
    {r : BindRule} {rs : List BindRule} (hr : Operand ts r) (hrs : Alternatives Operand us rs) :
    Level Operand (ts ++ us) (group or false (r :: rs)) := by
  cases rs with
  | nil =>
      cases hrs
      rw [List.append_nil]
      exact .single hr
  | cons r' rs => exact .disjunction hr hrs (List.cons_ne_nil r' rs)

/-- The values of the conditions are what reading their texts gives. -/
def ReadsBack (cs : List Condition) : Prop :=
  ∀ c ∈ cs, Value.parseBind c.keyword c.value.text = .ok c.value

theorem readsBack_append {cs ds : List Condition} :
    ReadsBack (cs ++ ds) ↔ ReadsBack cs ∧ ReadsBack ds := by
  simp only [ReadsBack, List.forall_mem_append]

theorem ReadsBack.text_ne_nil {cs : List Condition} (h : ReadsBack cs) :
    ∀ c ∈ cs, c.value.text ≠ [] := by
  intro c hc hnil
  have hvalue := h c hc
  rw [hnil, parseBind_nil] at hvalue
  cases hvalue

mutual

/-- The pieces of a placed rule derive its normal form, if parentheses may nest far enough. -/
theorem derives_pieces :
    ∀ r : BindRule, r.isPlaced = true → r.isNot = false → ReadsBack r.conditions →
      ∃ d, ∀ e, d ≤ e → IsOperand e (spelled (r.pieces true)) (r.normal true) ∧
        IsRule e (spelled (r.pieces false)) (r.normal false)
  | condition c, _, _, hread => by
      have hoperand := derives_condition (hread c (by simp [conditions]))
      exact ⟨1, fun e he => ⟨hoperand e he, .single (hoperand e he)⟩⟩
  | and [] p, hplaced, _, _ => by
      simp [isPlaced] at hplaced
  | and (r :: rs) p, hplaced, _, hread => by
      obtain ⟨_, _, hcons, hnot, hr, hrs⟩ := isPlaced_and_iff.1 hplaced
      obtain ⟨rfl, rfl⟩ := List.cons.inj hcons
      rw [conditions, conditionsOfAll, readsBack_append] at hread
      obtain ⟨d, hfirst⟩ := derives_pieces r hr hnot hread.1
      obtain ⟨d', hothers⟩ := derives_conjuncts rs hrs hread.2
      refine ⟨max d d' + 1, derives_group (fun _ => rfl) (fun e he => ?_) p⟩
      rw [linkedPieces, List.cons_append, List.tail_cons, spelled_append]
      exact level_conjuncts (hfirst e (by omega)).1 (hothers e (by omega))
  | or [] p, hplaced, _, _ => by
      simp [isPlaced] at hplaced
  | or (r :: rs) p, hplaced, _, hread => by
      obtain ⟨_, _, hcons, hnot, hnots, hr, hrs⟩ := isPlaced_or_iff.1 hplaced
      obtain ⟨rfl, rfl⟩ := List.cons.inj hcons
      rw [conditions, conditionsOfAll, readsBack_append] at hread
      obtain ⟨d, hfirst⟩ := derives_pieces r hr hnot hread.1
      obtain ⟨d', hothers⟩ := derives_alternatives rs hrs hnots hread.2
      refine ⟨max d d' + 1, derives_group (fun _ => rfl) (fun e he => ?_) p⟩
      rw [linkedPieces, List.cons_append, List.tail_cons, spelled_append]
      exact level_alternatives (hfirst e (by omega)).1 (hothers e (by omega))
  | not o, _, hnot, _ => by cases hnot

theorem derives_conjuncts :
    ∀ rs : List BindRule, allPlaced rs = true → ReadsBack (conditionsOfAll rs) →
      ∃ d, ∀ e, d ≤ e → Conjuncts (IsOperand e) (spelled (linkedPieces .and rs)) (normals rs)
  | [], _, _ => ⟨0, fun e _ => .nil⟩
  | r :: rs, hplaced, hread => by
      obtain ⟨hr, hrs⟩ := allPlaced_cons_iff.1 hplaced
      rw [conditionsOfAll, readsBack_append] at hread
      obtain ⟨d, hothers⟩ := derives_conjuncts rs hrs hread.2
      cases hnot : r.isNot with
      | false =>
          obtain ⟨d', hfirst⟩ := derives_pieces r hr hnot hread.1
          refine ⟨max d d', fun e he => ?_⟩
          rw [linkedPieces, List.cons_append, spelled_cons, spelled_append, hnot,
            ← List.append_assoc]
          exact .and rfl (hfirst e (by omega)).1 (hothers e (by omega))
      | true =>
          cases r with
          | not o =>
              obtain ⟨ho, hpo⟩ := isPlaced_not_iff.1 hr
              obtain ⟨d', hfirst⟩ := derives_pieces o hpo ho hread.1
              refine ⟨max d d', fun e he => ?_⟩
              rw [linkedPieces, List.cons_append, spelled_cons, spelled_append,
                ← List.append_assoc]
              exact .andNot rfl (hfirst e (by omega)).1 (hothers e (by omega))
          | _ => cases hnot

theorem derives_alternatives :
    ∀ rs : List BindRule, allPlaced rs = true → rs.any isNot = false →
      ReadsBack (conditionsOfAll rs) →
      ∃ d, ∀ e, d ≤ e → Alternatives (IsOperand e) (spelled (linkedPieces .or rs)) (normals rs)
  | [], _, _, _ => ⟨0, fun e _ => .nil⟩
  | r :: rs, hplaced, hnots, hread => by
      obtain ⟨hr, hrs⟩ := allPlaced_cons_iff.1 hplaced
      rw [List.any_cons, Bool.or_eq_false_iff] at hnots
      rw [conditionsOfAll, readsBack_append] at hread
      obtain ⟨d, hothers⟩ := derives_alternatives rs hrs hnots.2 hread.2
      obtain ⟨d', hfirst⟩ := derives_pieces r hr hnots.1 hread.1
      refine ⟨max d d', fun e he => ?_⟩
      rw [linkedPieces, List.cons_append, spelled_cons, spelled_append, hnots.1,
        ← List.append_assoc]
      exact .or rfl (hfirst e (by omega)).1 (hothers e (by omega))

end

/-- How deep the parentheses of a written rule nest, those of quoted values left aside. -/
def nesting (t : Text) : Nat :=
  match BindToken.tokens t with
  | .ok ts => BindToken.nesting ts
  | .error _ => 0

theorem check_eq_ok_iff {r : BindRule} :
    r.check = .ok () ↔ r.isNot = false ∧ r.faults = [] := by
  rw [check, Error.verdict_eq_ok_iff, List.append_eq_nil_iff, finding_eq_nil_iff]

/--
A rule in order whose values are closed and read back as themselves is read back in its normal
form, under every limit that its parentheses keep.
-/
theorem parseWith_text {limit : Nat} {r : BindRule} (hcheck : r.check = .ok ())
    (hclosed : ∀ c ∈ r.conditions, c.value.text.isClosed = true) (hread : ReadsBack r.conditions)
    (hnesting : nesting r.text ≤ limit) : parseWith limit r.text = .ok (r.normal false) := by
  obtain ⟨hnot, hfaults⟩ := check_eq_ok_iff.1 hcheck
  have hplaced := isPlaced_of_faults r hfaults
  have htokens := tokens_text hplaced hnot hclosed hread.text_ne_nil
  obtain ⟨d, hderives⟩ := derives_pieces r hplaced hnot hread
  rw [nesting, htokens] at hnesting
  exact parseWith_of_isRule htokens (isRule_iff.2 ⟨hnesting, d, (hderives d (Nat.le_refl d)).2⟩)

/-- Writing a rule and reading it back keeps its truth value, and gives its normal form. -/
theorem text_keeps_meaning {limit : Nat} {r : BindRule} (hcheck : r.check = .ok ())
    (hclosed : ∀ c ∈ r.conditions, c.value.text.isClosed = true) (hread : ReadsBack r.conditions)
    (hnesting : nesting r.text ≤ limit) :
    ∃ r', parseWith limit r.text = .ok r' ∧ r' = r.normal false ∧
      ∀ σ, r'.holds σ = r.holds σ :=
  ⟨r.normal false, parseWith_text hcheck hclosed hread hnesting, rfl,
    fun σ => holds_normal σ false r⟩

/-- A disjunction with a group of one operand, a negated group and doubled parentheses. -/
def mixedRule : BindRule :=
  or [and [condition ⟨.userDn, .eq, .names ⟨[.special .self]⟩, true⟩,
      not (or [condition ⟨.ip, .ne, .addresses ⟨["10.*".toList]⟩, false⟩] true)] false,
    and [condition ⟨.ssf, .ge, .strength ⟨128⟩, false⟩] false] false

theorem text_keeps_meaning_of_mixedRule :
    ∃ r', parseWith 2 mixedRule.text = .ok r' ∧ r' = mixedRule.normal false ∧
      ∀ σ, r'.holds σ = mixedRule.holds σ := by
  have hcheck : mixedRule.check = .ok () := rfl
  have hclosed : ∀ c ∈ mixedRule.conditions, c.value.text.isClosed = true := by
    intro c hc
    rw [Text.isClosed_iff]
    revert c
    decide
  have hread : ReadsBack mixedRule.conditions := by
    intro c hc
    simp only [mixedRule, conditions, conditionsOfAll, List.append_nil, List.cons_append,
      List.nil_append, List.mem_cons, List.not_mem_nil, or_false] at hc
    rcases hc with rfl | rfl | rfl <;> rfl
  refine text_keeps_meaning hcheck hclosed hread ?_
  rw [nesting, tokens_text (by decide) (by decide) hclosed (by decide)]
  decide

end BindRule

end DirectoryAccess
