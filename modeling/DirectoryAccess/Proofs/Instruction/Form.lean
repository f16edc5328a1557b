import DirectoryAccess.Proofs.BindRule.Form
import DirectoryAccess.Proofs.Instruction.Assembly

/-!
# What reading guarantees

An instruction that was read is well formed in all its parts but for the
operators, which reading takes as they come.  So the verdict on it reports
operators only, those of the target clauses first.
-/

namespace DirectoryAccess

/-- Of the operators that the scanner knows, only one is not permitted, and to one keyword. -/
theorem TargetKeyword.permits_of_isKnown {k : TargetKeyword} {op : Operator}
    (h : TargetToken.isKnown op = true) : k.permits op = !(k == .targetScope && op == .ne) := by
  revert h
  cases k <;> cases op <;> decide

namespace Clause

/-- The complaint about the operator of the clause, if its keyword does not permit it. -/
def operatorFaults (c : Clause) : List Error :=
  if c.keyword.permits c.op then [] else [.operatorNotPermitted (.target c.keyword) c.op]

theorem IsRead.suitsTarget {t : Text} {c : Clause} (h : c.IsRead t) :
    c.value.SuitsTarget c.keyword := by
  obtain ⟨raws, hvalue, -⟩ := h.value
  exact Value.suitsTarget_of_parseTarget hvalue

theorem comeTo_check {c : Clause} (h : c.value.SuitsTarget c.keyword) :
    Error.ComeTo (Error.findings c.check) c.operatorFaults := by
  have hfaults : c.faults = c.operatorFaults := by
    rw [faults, h.1, h.2, operatorFaults]
    simp
  rw [check, hfaults]
  exact Error.ComeTo.verdict (Error.ComeTo.ite_single (c.keyword.permits c.op) rfl)

end Clause

theorem TargetRule.comeTo_check {r : TargetRule} (hsize : r.size ≤ mostClauses)
    (hsuits : ∀ c ∈ r.clauses, c.value.SuitsTarget c.keyword) :
    Error.ComeTo (Error.findings r.check) (r.clauses.flatMap Clause.operatorFaults) := by
  rw [check, if_neg (Nat.not_lt.2 hsize), List.nil_append]
  exact Error.ComeTo.verdict (.flatMap fun c hc => c.comeTo_check (hsuits c hc))

namespace Statement

theorem comeTo_check {s : Statement} (hknown : s.permission.rights.isKnown = true)
    (hform : s.bindRule.IsRootForm)
    (hsuits : ∀ c ∈ s.bindRule.conditions, c.value.SuitsBind c.keyword) :
    Error.ComeTo (Error.findings s.check)
      (s.bindRule.conditions.flatMap Condition.operatorFaults) := by
  have hpermission : s.permission.check = .ok () := by rw [Permission.check, hknown, if_pos rfl]
  rw [check, hpermission]
  exact Error.ComeTo.verdict (BindRule.comeTo_check hform hsuits)

end Statement

namespace Instruction

def clauses (i : Instruction) : List Clause :=
  (i.targetRule.map TargetRule.clauses).getD []

def conditions (i : Instruction) : List Condition :=
  i.policy.statements.flatMap fun s => s.bindRule.conditions

/-- What every instruction has that was read, whatever its operators. -/
structure IsWellFormed (i : Instruction) : Prop where
  label_not_blank : Text.isBlankText i.label = false
  label_not_open : Text.hasNoOpenQuote i.label = true
  target_size : ∀ r ∈ i.targetRule, 1 ≤ r.size ∧ r.size ≤ mostClauses
  target_keywords : ∀ r ∈ i.targetRule, (r.clauses.map Clause.keyword).Nodup
  rights : ∀ s ∈ i.policy.statements, s.permission.rights.isKnown = true
  rules : ∀ s ∈ i.policy.statements, s.bindRule.IsFormed
  clauses : ∀ c ∈ i.clauses, c.value.SuitsTarget c.keyword
  conditions : ∀ c ∈ i.conditions, c.value.SuitsBind c.keyword

variable {limit : Nat} {t : Text} {i : Instruction}

/-- The statements of an instruction that was read were read one by one. -/
theorem exists_of_mem_statements (h : parseWith limit t = .ok i) {s : Statement}
    (hs : s ∈ i.policy.statements) : s.permission.rights.isKnown = true ∧
      ∃ rule, BindRule.parseWith limit rule = .ok s.bindRule := by
  obtain ⟨body, hpolicy⟩ := exists_policy_of_parseWith h
  obtain ⟨hstatements, -⟩ := Policy.parseWith_eq_ok_iff.1 hpolicy
  obtain ⟨segment, -, hsegment⟩ := Outcome.exists_of_mem_right hstatements hs
  obtain ⟨front, rule, -, hpermission, hrule⟩ := Statement.parseWith_eq_ok_iff.1 hsegment
  exact ⟨Permission.isKnown_of_parse hpermission, rule, hrule⟩

theorem isRead_of_mem_clauses (h : parseWith limit t = .ok i) {c : Clause} (hc : c ∈ i.clauses) :
    ∃ targets, c.IsRead targets := by
  unfold clauses at hc
  cases hr : i.targetRule with
  | none => simp [hr] at hc
  | some r =>
      obtain ⟨-, -, targets, hparse⟩ := targetRule_of_parseWith h hr
      rw [hr] at hc
      exact ⟨targets, TargetRule.isRead_of_parse hparse c hc⟩

theorem isWellFormed_of_parseWith (h : parseWith limit t = .ok i) : i.IsWellFormed := by
  obtain ⟨hclosed, hblank⟩ := isClosed_label_of_parseWith h
  have hdistinct (r : TargetRule) (hr : r ∈ i.targetRule) :
      r.clauses ≠ [] ∧ r.IsDistinct := by
    obtain ⟨hne, -, targets, hparse⟩ := targetRule_of_parseWith h hr
    exact ⟨hne, TargetRule.isDistinct_of_parse hparse⟩
  constructor
  case label_not_blank => exact hblank
  case label_not_open =>
    rw [Text.hasNoOpenQuote_eq]
    exact (Text.isClosed_iff.1 hclosed).1
  case target_size =>
    intro r hr
    exact ⟨List.length_pos_iff.2 (hdistinct r hr).1, (hdistinct r hr).2.size⟩
  case target_keywords => exact fun r hr => (hdistinct r hr).2.keywords
  case rights => exact fun s hs => (exists_of_mem_statements h hs).1
  case rules =>
    intro s hs
    obtain ⟨-, rule, hrule⟩ := exists_of_mem_statements h hs
    exact BindRule.isFormed_of_parseWith hrule
  case clauses =>
    intro c hc
    obtain ⟨targets, hread⟩ := isRead_of_mem_clauses h hc
    exact hread.suitsTarget
  case conditions =>
    intro c hc
    obtain ⟨s, hs, hc⟩ := List.mem_flatMap.1 hc
    obtain ⟨-, rule, hrule⟩ := exists_of_mem_statements h hs
    exact BindRule.suitsBind_of_parseWith hrule c hc

theorem comeTo_check (hform : i.IsWellFormed) (hne : i.policy.statements ≠ []) :
    Error.ComeTo (Error.findings i.check)
      (i.clauses.flatMap Clause.operatorFaults ++
        i.conditions.flatMap Condition.operatorFaults) := by
  have hlabel : labelFaults i.label = [] := by
    rw [labelFaults, hform.label_not_blank, hform.label_not_open]
    rfl
  have htarget : Error.ComeTo ((i.targetRule.map fun r => Error.findings r.check).getD [])
      (i.clauses.flatMap Clause.operatorFaults) := by
    have hsuits := hform.clauses
    unfold clauses at hsuits ⊢
    cases hr : i.targetRule with
    | none => exact .none
    | some r =>
        rw [hr] at hsuits
        exact TargetRule.comeTo_check (hform.target_size r hr).2 hsuits
  have hpolicy : Error.ComeTo (Error.findings i.policy.check)
      (i.conditions.flatMap Condition.operatorFaults) := by
    rw [Policy.check, if_neg (by simpa using hne), conditions, List.flatMap_assoc]
    refine Error.ComeTo.verdict (.flatMap fun s hs => ?_)
    refine Statement.comeTo_check (hform.rights s hs) (hform.rules s hs).root fun c hc => ?_
    exact hform.conditions c (List.mem_flatMap.2 ⟨s, hs, hc⟩)
  rw [check, hlabel, List.nil_append]
  exact (htarget.append hpolicy).verdict

/-- The operators that reading lets pass and the verdict reports, from left to right. -/
def operatorFaults (i : Instruction) : List Error :=
  (i.clauses.filter fun c => c.keyword == .targetScope && c.op == .ne).map
      (fun c => .operatorNotPermitted (.target c.keyword) c.op) ++
    (i.conditions.filter fun c => !c.keyword.permits c.op).map
      fun c => .operatorNotPermitted (.bind c.keyword) c.op

/-- Faults of single items together are those of the items that do not pass. -/
theorem flatMap_ite_eq_map_filter {α : Type} {passes : α → Bool} {fault : α → Error}
    (as : List α) : (as.flatMap fun a => if passes a then [] else [fault a]) =
      (as.filter fun a => !passes a).map fault := by
  induction as with
  | nil => rfl
  | cons a as ih => cases hp : passes a <;> simp [hp, ih]

theorem flatMap_operatorFaults (h : parseWith limit t = .ok i) :
    i.clauses.flatMap Clause.operatorFaults ++ i.conditions.flatMap Condition.operatorFaults =
      i.operatorFaults := by
  have hclauses : i.clauses.filter (fun c => !c.keyword.permits c.op) =
      i.clauses.filter fun c => c.keyword == .targetScope && c.op == .ne := by
    refine List.filter_congr fun c hc => ?_
    obtain ⟨targets, hread⟩ := isRead_of_mem_clauses h hc
    rw [TargetKeyword.permits_of_isKnown hread.operator, Bool.not_not]
  unfold Clause.operatorFaults Condition.operatorFaults operatorFaults
  rw [flatMap_ite_eq_map_filter, flatMap_ite_eq_map_filter, hclauses]

/--
An instruction that was read is well formed, the single faults behind the verdict on it are its
operators that are not permitted, and the verdict is good if there are none.
-/
theorem check_reports_operators (h : parseWith limit t = .ok i) :
    i.IsWellFormed ∧ Error.leavesOfAll (Error.findings i.check) = i.operatorFaults ∧
      (i.check = .ok () ↔ i.operatorFaults = []) := by
  have hform := isWellFormed_of_parseWith h
  obtain ⟨_, _, _, _, _, -, -, -, -, -, hpolicy⟩ := parseWith_eq_ok_iff.1 h
  have hcomes := comeTo_check hform (Policy.parseWith_eq_ok_iff.1 hpolicy).2
  rw [flatMap_operatorFaults h] at hcomes
  exact ⟨hform, hcomes.leaves, hcomes.eq_ok_iff⟩

/-- An instruction whose clause and condition have operators that their keywords do not permit. -/
def mismatched : Instruction :=
  ⟨some ⟨[⟨.targetScope, .ne, .scope .base⟩]⟩, "x".toList,
    ⟨[⟨⟨.allow, .ofList [.read]⟩, .condition (.make .userDn .lt (.names ⟨[.special .anyone]⟩))⟩]⟩⟩

theorem parseWith_mismatched :
    parseWith 0 (assembled "(targetscope != \"base\")".toList "x".toList
      "allow(read) userdn < \"ldap:///anyone\";".toList) = .ok mismatched := by
  have htarget : TargetRule.parse (TargetRule.text ⟨[⟨.targetScope, .ne, .scope .base⟩]⟩) =
      .ok ⟨[⟨.targetScope, .ne, .scope .base⟩]⟩ := by
    refine TargetRule.parse_text ⟨List.nodup_singleton _, Nat.le_add_left 1 8⟩ ?_ ?_
    · decide
    · intro c hc
      rw [List.mem_singleton.1 hc]
      refine ⟨fun v hv => ?_, rfl⟩
      rw [List.mem_singleton.1 hv]
      exact Text.isClosed_iff.2 ⟨by decide, by decide⟩
  have hlacks : Text.Lacks versionMarker "(targetscope != \"base\")".toList :=
    .of_not_mem (c := '.') (by decide) (by decide)
  have hpolicy : Policy.parseWith 0 "allow(read) userdn < \"ldap:///anyone\";".toList =
      .ok mismatched.policy :=
    Policy.parseWith_condition ⟨.allow, .ofList [.read]⟩
      (.make .userDn .lt (.names ⟨[.special .anyone]⟩)) rfl rfl
      (Text.isClosed_iff.2 ⟨by decide, by decide⟩) rfl
  exact parseWith_assembled (Or.inr ⟨_, htarget, List.cons_ne_nil _ _, rfl⟩) hlacks
    (Text.isClosed_iff.2 ⟨by decide, by decide⟩) (by decide) hpolicy

theorem check_reports_operators_of_mismatched :
    mismatched.IsWellFormed ∧
      Error.leavesOfAll (Error.findings mismatched.check) =
        [.operatorNotPermitted (.target .targetScope) .ne,
          .operatorNotPermitted (.bind .userDn) .lt] ∧
      mismatched.check ≠ .ok () := by
  obtain ⟨hform, hleaves, hok⟩ := check_reports_operators parseWith_mismatched
  have hfaults : mismatched.operatorFaults =
      [.operatorNotPermitted (.target .targetScope) .ne,
        .operatorNotPermitted (.bind .userDn) .lt] := rfl
  rw [hfaults] at hleaves hok
  exact ⟨hform, hleaves, fun hgood => List.cons_ne_nil _ _ (hok.1 hgood)⟩

end Instruction

end DirectoryAccess
