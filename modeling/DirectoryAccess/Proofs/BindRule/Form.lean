import DirectoryAccess.Proofs.BindRule.Derived
import DirectoryAccess.Proofs.Findings
import DirectoryAccess.Proofs.Value.Shape

/-!
# The form of rules that were read

Reading gives conjunctions and disjunctions of two or more operands, puts those
inside others in parentheses, and negates only what stands behind `AND`.  What
is wrong with such a rule is wrong with the operators of its conditions.
-/

namespace DirectoryAccess

namespace BindRule

mutual

/--
Holds if every conjunction and disjunction has two or more operands and those below the rule carry
parentheses of their own.
-/
def isGrouped : BindRule → Bool
  | condition _ => true
  | and os _ => decide (2 ≤ os.length) && allGrouped os
  | or os _ => decide (2 ≤ os.length) && allGrouped os
  | not o => !o.isOpenGroup && isGrouped o

def allGrouped : List BindRule → Bool
  | [] => true
  | r :: rs => !r.isOpenGroup && isGrouped r && allGrouped rs

end

theorem allGrouped_cons_iff {r : BindRule} {rs : List BindRule} :
    allGrouped (r :: rs) = true ↔
      (r.isOpenGroup = false ∧ r.isGrouped = true) ∧ allGrouped rs = true := by
  rw [allGrouped, Bool.and_eq_true, Bool.and_eq_true, Bool.not_eq_true']

theorem isGrouped_inParens {r : BindRule} (hnot : r.isNot = false) (h : r.isGrouped = true) :
    r.inParens.isGrouped = true := by
  cases r with
  | condition c => rfl
  | and os p => exact h
  | or os p => exact h
  | not o => cases hnot

theorem IsCondition.isGrouped {ts : List BindToken} {r : BindRule} (h : IsCondition ts r) :
    r.isGrouped = true := by
  cases h with
  | intro => rfl

section Level

variable {Operand : List BindToken → BindRule → Prop}
variable (hoperand : ∀ ts r, Operand ts r → r.isOpenGroup = false ∧ r.isGrouped = true)

include hoperand

theorem Alternatives.allGrouped {ts : List BindToken} {rs : List BindRule}
    (h : Alternatives Operand ts rs) : allGrouped rs = true := by
  induction h with
  | nil => rfl
  | or ht hr hrs ih => exact allGrouped_cons_iff.2 ⟨hoperand _ _ hr, ih⟩

theorem Conjuncts.allGrouped {ts : List BindToken} {rs : List BindRule}
    (h : Conjuncts Operand ts rs) : allGrouped rs = true := by
  induction h with
  | nil => rfl
  | and ht hr hrs ih => exact allGrouped_cons_iff.2 ⟨hoperand _ _ hr, ih⟩
  | andNot ht hr hrs ih =>
      -- The negation itself is no group; what it negates carries its parentheses.
      obtain ⟨hopen, hgrouped⟩ := hoperand _ _ hr
      refine allGrouped_cons_iff.2 ⟨⟨rfl, ?_⟩, ih⟩
      rw [BindRule.isGrouped, hopen, hgrouped]
      rfl

theorem Level.isGrouped {ts : List BindToken} {r : BindRule} (h : Level Operand ts r) :
    r.isGrouped = true := by
  have htwo (r : BindRule) {rs : List BindRule} (hne : rs ≠ []) : 2 ≤ (r :: rs).length := by
    have hlength := List.length_pos_iff.2 hne
    rw [List.length_cons]
    omega
  cases h with
  | single hr => exact (hoperand _ _ hr).2
  | disjunction hr hrs hne =>
      have hall := allGrouped_cons_iff.2 ⟨hoperand _ _ hr, hrs.allGrouped hoperand⟩
      rw [BindRule.isGrouped, hall, decide_eq_true (htwo _ hne)]
      rfl
  | conjunction hr hrs hne =>
      have hall := allGrouped_cons_iff.2 ⟨hoperand _ _ hr, hrs.allGrouped hoperand⟩
      rw [BindRule.isGrouped, hall, decide_eq_true (htwo _ hne)]
      rfl

end Level

theorem IsOperand.isGrouped {n : Nat} {ts : List BindToken} {r : BindRule}
    (h : IsOperand n ts r) : r.isOpenGroup = false ∧ r.isGrouped = true := by
  refine ⟨h.operandForm.isOpenGroup, ?_⟩
  induction n generalizing ts r with
  | zero => exact IsCondition.isGrouped h
  | succ n ih =>
      have hbelow (us : List BindToken) (o : BindRule) (ho : IsOperand n us o) :
          o.isOpenGroup = false ∧ o.isGrouped = true := ⟨ho.operandForm.isOpenGroup, ih ho⟩
      rcases h with h | h
      · exact h.isGrouped
      · cases h with
        | intro hopen hclose hr =>
            exact isGrouped_inParens (IsRule.rootForm hr).isNot (Level.isGrouped hbelow hr)

/-- The form of a rule that was read: groups, parentheses and negations as the grammar has them. -/
structure IsFormed (r : BindRule) : Prop where
  root : r.IsRootForm
  isGrouped : r.isGrouped = true

theorem isFormed_of_parseWith {limit : Nat} {t : Text} {r : BindRule}
    (h : parseWith limit t = .ok r) : r.IsFormed := by
  obtain ⟨ts, -, hrule⟩ := isRule_of_parseWith h
  exact ⟨hrule.rootForm, Level.isGrouped (fun _ _ => IsOperand.isGrouped) hrule⟩

/-- The values of a rule that was read have the shapes of their keywords and are not empty. -/
theorem suitsBind_of_parseWith {limit : Nat} {t : Text} {r : BindRule}
    (h : parseWith limit t = .ok r) : ∀ c ∈ r.conditions, c.value.SuitsBind c.keyword := by
  obtain ⟨ts, -, hrule⟩ := isRule_of_parseWith h
  intro c hc
  obtain ⟨us, -, hus⟩ := hrule.leaves.exists_isCondition c.bare (List.mem_map_of_mem hc)
  cases hus with
  | intro hname hop hne hvalues hkeyword hvalue => exact Value.suitsBind_of_parseBind hvalue

mutual

/-- What is wrong with a placed rule is what is wrong with its conditions. -/
theorem faults_eq_flatMap : ∀ r : BindRule, r.isPlaced = true →
    r.faults = r.conditions.flatMap Condition.faults
  | condition c, _ => by simp [faults, conditions]
  | and os p, hplaced => by
      simp only [isPlaced, Bool.and_eq_true, Bool.not_eq_true'] at hplaced
      obtain ⟨⟨hempty, hfirst⟩, hos⟩ := hplaced
      simp only [faults, conditions, hempty, hfirst, faultsOfAll_eq_flatMap os hos, finding,
        Bool.false_eq_true, if_false, List.nil_append]
  | or os p, hplaced => by
      simp only [isPlaced, Bool.and_eq_true, Bool.not_eq_true'] at hplaced
      obtain ⟨⟨hempty, hnots⟩, hos⟩ := hplaced
      simp only [faults, conditions, hempty, hnots, faultsOfAll_eq_flatMap os hos, finding,
        Bool.false_eq_true, if_false, List.nil_append]
  | not o, hplaced => by
      obtain ⟨hnot, ho⟩ := isPlaced_not_iff.1 hplaced
      simp only [faults, conditions, hnot, faults_eq_flatMap o ho, finding, Bool.false_eq_true,
        if_false, List.nil_append]

theorem faultsOfAll_eq_flatMap : ∀ rs : List BindRule, allPlaced rs = true →
    faultsOfAll rs = (conditionsOfAll rs).flatMap Condition.faults
  | [], _ => rfl
  | r :: rs, hplaced => by
      obtain ⟨hr, hrs⟩ := allPlaced_cons_iff.1 hplaced
      rw [faultsOfAll, faults_eq_flatMap r hr, faultsOfAll_eq_flatMap rs hrs, conditionsOfAll,
        List.flatMap_append]

end

end BindRule

namespace Condition

/-- The complaint about the operator of the condition, if its keyword does not permit it. -/
def operatorFaults (c : Condition) : List Error :=
  if c.keyword.permits c.op then [] else [.operatorNotPermitted (.bind c.keyword) c.op]

theorem faults_of_suitsBind {c : Condition} (h : c.value.SuitsBind c.keyword) :
    c.faults = c.operatorFaults := by
  rw [faults, h.1, h.2, operatorFaults]
  simp

theorem comeTo_operatorFaults (c : Condition) :
    Error.ComeTo c.operatorFaults c.operatorFaults :=
  Error.ComeTo.ite_single (c.keyword.permits c.op) rfl

end Condition

/-- The verdict on a rule that was read comes to the operators of its conditions. -/
theorem BindRule.comeTo_check {r : BindRule} (hform : r.IsRootForm)
    (hsuits : ∀ c ∈ r.conditions, c.value.SuitsBind c.keyword) :
    Error.ComeTo (Error.findings r.check) (r.conditions.flatMap Condition.operatorFaults) := by
  have hcheck : r.check = Error.verdict (r.conditions.flatMap Condition.faults) := by
    rw [check, hform.isNot, faults_eq_flatMap r hform.isPlaced]
    rfl
  rw [hcheck]
  refine Error.ComeTo.verdict (.flatMap fun c hc => ?_)
  rw [c.faults_of_suitsBind (hsuits c hc)]
  exact c.comeTo_operatorFaults

end DirectoryAccess
