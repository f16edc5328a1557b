import DirectoryAccess.BindRule.Parser
import DirectoryAccess.Proofs.Outcome
import DirectoryAccess.Proofs.Run

/-!
# The grammar of bind rules

The grammar is stated on tokens and apart from the reader: a level of operands
joined by connectives of one kind, and operands that are conditions or levels in
parentheses.  The reader accepts exactly the tokens that the grammar derives.
-/

namespace DirectoryAccess

def BindToken.isValue (t : BindToken) : Bool :=
  match t.kind with
  | .value _ => true
  | _ => false

namespace BindRule

/-! ## Grammar -/

/-- A keyword, an operator, and one or more values that together the keyword interprets. -/
inductive IsCondition : List BindToken → BindRule → Prop where
  | intro {name comparison : BindToken} {values : List BindToken} {k : BindKeyword} {op : Operator}
      {v : Value} (hname : name.isValue = true) (hop : comparison.kind = .operator op)
      (hne : values ≠ []) (hvalues : ∀ t ∈ values, t.isValue = true)
      (hkeyword : BindKeyword.parse name.text = .ok k)
      (hvalue : Value.parseBind k (spell values) = .ok v) :
      IsCondition (name :: comparison :: values) (condition (.make k op v))

section Level

variable (Operand : List BindToken → BindRule → Prop)

/-- Operands, each behind `OR`. -/
inductive Alternatives : List BindToken → List BindRule → Prop where
  | nil : Alternatives [] []
  | or {t : BindToken} {ts us : List BindToken} {r : BindRule} {rs : List BindRule}
      (ht : t.kind = .or) (hr : Operand ts r) (hrs : Alternatives us rs) :
      Alternatives (t :: ts ++ us) (r :: rs)

/-- Operands, each behind `AND` or negated behind `AND NOT`. -/
inductive Conjuncts : List BindToken → List BindRule → Prop where
  | nil : Conjuncts [] []
  | and {t : BindToken} {ts us : List BindToken} {r : BindRule} {rs : List BindRule}
      (ht : t.kind = .and) (hr : Operand ts r) (hrs : Conjuncts us rs) :
      Conjuncts (t :: ts ++ us) (r :: rs)
  | andNot {t : BindToken} {ts us : List BindToken} {r : BindRule} {rs : List BindRule}
      (ht : t.kind = .andNot) (hr : Operand ts r) (hrs : Conjuncts us rs) :
      Conjuncts (t :: ts ++ us) (not r :: rs)

/-- An operand alone, or two or more operands joined by connectives of one kind. -/
inductive Level : List BindToken → BindRule → Prop where
  | single {ts : List BindToken} {r : BindRule} (hr : Operand ts r) : Level ts r
  | disjunction {ts us : List BindToken} {r : BindRule} {rs : List BindRule}
      (hr : Operand ts r) (hrs : Alternatives Operand us rs) (hne : rs ≠ []) :
      Level (ts ++ us) (or (r :: rs) false)
  | conjunction {ts us : List BindToken} {r : BindRule} {rs : List BindRule}
      (hr : Operand ts r) (hrs : Conjuncts Operand us rs) (hne : rs ≠ []) :
      Level (ts ++ us) (and (r :: rs) false)

inductive Enclosed : List BindToken → BindRule → Prop where
  | intro {opening closing : BindToken} {ts : List BindToken} {r : BindRule}
      (hopen : opening.kind = .openParen) (hclose : closing.kind = .closeParen)
      (hr : Level Operand ts r) :
      Enclosed (opening :: ts ++ [closing]) r.inParens

end Level

/-- A condition, or a level in parentheses, which nest at most as deep as the number says. -/
def IsOperand : Nat → List BindToken → BindRule → Prop
  | 0 => IsCondition
  | depth + 1 => fun ts r => IsCondition ts r ∨ Enclosed (IsOperand depth) ts r

/-- The tokens spell the rule, with parentheses nested at most so deep. -/
def IsRule (depth : Nat) (ts : List BindToken) (r : BindRule) : Prop :=
  Level (IsOperand depth) ts r

/-! ## Reading a condition -/

theorem IsOperand.of_condition {depth : Nat} {ts : List BindToken} {r : BindRule}
    (h : IsCondition ts r) : IsOperand depth ts r := by
  cases depth with
  | zero => exact h
  | succ depth => exact Or.inl h

/-- Holds where a condition may end: at a connective, a parenthesis or the end of the tokens. -/
def EndsCondition (ts : List BindToken) : Prop :=
  ∀ t ∈ ts.head?, endsCondition t = true

theorem cutLastOperator?_eq_none_iff {ts : List BindToken} :
    cutLastOperator? ts = none ↔ ∀ t ∈ ts, ∀ op, t.kind ≠ .operator op := by
  induction ts with
  | nil => simp [cutLastOperator?]
  | cons t ts ih =>
      cases hts : cutLastOperator? ts with
      | some parts =>
          have hnot := mt ih.2 (by rw [hts]; simp)
          simp only [cutLastOperator?, hts, reduceCtorEq, false_iff]
          intro hall
          exact hnot fun u hu => hall u (List.mem_cons_of_mem t hu)
      | none =>
          have hrest := ih.1 hts
          cases hkind : t.kind <;> simp [cutLastOperator?, hts, hkind] <;> exact hrest

theorem cutLastOperator?_append_cons {t : BindToken} {back : List BindToken} {op : Operator}
    (ht : t.kind = .operator op) (hback : cutLastOperator? back = none) (front : List BindToken) :
    cutLastOperator? (front ++ t :: back) = some (front, op, back) := by
  induction front with
  | nil =>
      rw [List.nil_append, cutLastOperator?, hback]
      simp only [ht]
  | cons u front ih => rw [List.cons_append, cutLastOperator?, ih]

theorem exists_of_cutLastOperator? {ts front back : List BindToken} {op : Operator}
    (h : cutLastOperator? ts = some (front, op, back)) :
    ∃ t, ts = front ++ t :: back ∧ t.kind = .operator op ∧ cutLastOperator? back = none := by
  induction ts generalizing front with
  | nil => cases h
  | cons t ts ih =>
      cases hts : cutLastOperator? ts with
      | some parts =>
          obtain ⟨inner, op', back'⟩ := parts
          simp only [cutLastOperator?, hts, Option.some.injEq, Prod.mk.injEq] at h
          obtain ⟨rfl, rfl, rfl⟩ := h
          obtain ⟨u, rfl, hu, hnone⟩ := ih hts
          exact ⟨u, rfl, hu, hnone⟩
      | none =>
          cases hkind : t.kind <;> simp [cutLastOperator?, hts, hkind] at h
          obtain ⟨rfl, rfl, rfl⟩ := h
          exact ⟨t, rfl, hkind, hts⟩

theorem cutLastOperator?_eq_some_iff {ts front back : List BindToken} {op : Operator} :
    cutLastOperator? ts = some (front, op, back) ↔
      ∃ t, ts = front ++ t :: back ∧ t.kind = .operator op ∧ cutLastOperator? back = none := by
  refine ⟨exists_of_cutLastOperator?, ?_⟩
  rintro ⟨t, rfl, ht, hback⟩
  exact cutLastOperator?_append_cons ht hback front

theorem parseBind_nil (k : BindKeyword) :
    Value.parseBind k [] = .error (.invalidValue (.keyword (.bind k)) .empty) := by
  rfl

theorem conditionOf_eq_ok_iff {ts : List BindToken} {r : BindRule} :
    (conditionOf ts).result = .ok r ↔
      ∃ name comparison values k op v,
        ts = name :: comparison :: values ∧ comparison.kind = .operator op ∧
          cutLastOperator? values = none ∧ BindKeyword.parse name.text = .ok k ∧
          Value.parseBind k (spell values) = .ok v ∧ r = condition (.make k op v) := by
  constructor
  · intro h
    unfold conditionOf at h
    split at h
    · simp at h
    · rename_i front op values hcut
      obtain ⟨comparison, hts, hop, hnone⟩ := cutLastOperator?_eq_some_iff.1 hcut
      simp only at h
      split at h
      · rename_i name
        split at h
        · simp at h
        · simp only [Journaled.result_bind, Journaled.result_lift, Journaled.result_leave,
            Journaled.result_pure, Value.journaledBind, Outcome.bind_eq_ok, Except.ok.injEq,
            exists_const] at h
          obtain ⟨k, hk, v, ⟨-, hv⟩, -, rfl⟩ := h
          exact ⟨name, comparison, values, k, op, v, hts, hop, hnone, hk, hv, rfl⟩
      · simp at h
  · rintro ⟨name, comparison, values, k, op, v, rfl, hop, hnone, hk, hv, rfl⟩
    have hcut : cutLastOperator? (name :: comparison :: values) = some ([name], op, values) :=
      cutLastOperator?_eq_some_iff.2 ⟨comparison, rfl, hop, hnone⟩
    have hraw : (spell values).isEmpty = false := by
      cases hspell : spell values with
      | nil =>
          rw [hspell, parseBind_nil] at hv
          cases hv
      | cons c cs => rfl
    simp only [conditionOf, hcut, hraw, Bool.false_eq_true, if_false, Journaled.result_bind,
      Journaled.result_lift, Journaled.result_leave, Journaled.result_pure, Value.journaledBind,
      Outcome.bind_eq_ok]
    exact ⟨k, hk, v, ⟨(), trivial, hv⟩, (), trivial, rfl⟩

theorem endsCondition_eq_false_iff {t : BindToken} :
    endsCondition t = false ↔ t.isValue = true ∨ ∃ op, t.kind = .operator op := by
  cases hkind : t.kind <;>
    simp [endsCondition, BindToken.isConnective, BindToken.isValue, hkind]

theorem isValue_of_not_endsCondition {t : BindToken} (hend : endsCondition t = false)
    (hop : ∀ op, t.kind ≠ .operator op) : t.isValue = true := by
  rcases endsCondition_eq_false_iff.1 hend with hvalue | ⟨op, hkind⟩
  · exact hvalue
  · exact absurd hkind (hop op)

theorem endsCondition_of_isValue {t : BindToken} (h : t.isValue = true) :
    endsCondition t = false :=
  endsCondition_eq_false_iff.2 (Or.inl h)

theorem IsCondition.not_endsCondition {ts : List BindToken} {r : BindRule}
    (h : IsCondition ts r) : ∀ t ∈ ts, endsCondition t = false := by
  cases h with
  | intro hname hop hne hvalues hkeyword hvalue =>
      intro t ht
      rcases List.mem_cons.1 ht with rfl | ht
      · exact endsCondition_of_isValue hname
      · rcases List.mem_cons.1 ht with rfl | ht
        · exact endsCondition_eq_false_iff.2 (Or.inr ⟨_, hop⟩)
        · exact endsCondition_of_isValue (hvalues t ht)

/-- The condition at the front of the tokens takes them up to the next connective or parenthesis. -/
theorem conditionFrom_sound {t : BindToken} {ts rest : List BindToken} {r : BindRule}
    (ht : t.isValue = true) (h : (conditionFrom (t :: ts)).result = .ok (r, rest)) :
    ∃ used, t :: ts = used ++ rest ∧ IsCondition used r ∧ EndsCondition rest := by
  simp only [conditionFrom, Journaled.result_bind, Journaled.result_pure, Outcome.bind_eq_ok,
    Except.ok.injEq, Prod.mk.injEq] at h
  obtain ⟨r', hcondition, rfl, rfl⟩ := h
  obtain ⟨name, comparison, values, k, op, v, hused, hop, hnone, hk, hv, rfl⟩ :=
    conditionOf_eq_ok_iff.1 hcondition
  have hinside : ∀ u ∈ name :: comparison :: values, endsCondition u = false := by
    intro u hu
    rw [← hused] at hu
    simpa using List.mem_takeWhile_imp hu
  have hvalues : ∀ u ∈ values, u.isValue = true := by
    intro u hu
    exact isValue_of_not_endsCondition (hinside u (by simp [hu]))
      (cutLastOperator?_eq_none_iff.1 hnone u hu)
  have hname : name = t := by
    rw [List.takeWhile_cons_of_pos (by simp [endsCondition_of_isValue ht])] at hused
    exact (List.cons.inj hused).1.symm
  have hne : values ≠ [] := by
    rintro rfl
    rw [show spell [] = [] from rfl, parseBind_nil] at hv
    cases hv
  refine ⟨name :: comparison :: values, ?_, ?_, ?_⟩
  · rw [← hused, List.takeWhile_append_dropWhile]
  · exact .intro (hname ▸ ht) hop hne hvalues hk hv
  · intro u hu
    simpa using Run.head?_dropWhile (fun u => !endsCondition u) (t :: ts) u hu

theorem conditionFrom_complete {ts rest : List BindToken} {r : BindRule}
    (h : IsCondition ts r) (hrest : EndsCondition rest) :
    (conditionFrom (ts ++ rest)).result = .ok (r, rest) := by
  have hinside : ∀ t ∈ ts, (!endsCondition t) = true := by
    simpa using h.not_endsCondition
  have hstop : ∀ t ∈ rest.head?, (!endsCondition t) = false := by
    simpa [EndsCondition] using hrest
  have htake := Run.takeWhile_append hinside hstop
  have hdrop := Run.dropWhile_append hinside hstop
  cases h with
  | intro hname hop hne hvalues hkeyword hvalue =>
      have hnone := cutLastOperator?_eq_none_iff.2 fun t ht op hkind => by
        have hvalue := hvalues t ht
        simp [BindToken.isValue, hkind] at hvalue
      have hcondition := conditionOf_eq_ok_iff.2
        ⟨_, _, _, _, _, _, rfl, hop, hnone, hkeyword, hvalue, rfl⟩
      simp only [conditionFrom, htake, hdrop, Journaled.result_bind, Journaled.result_pure,
        Outcome.bind_eq_ok]
      exact ⟨_, hcondition, rfl⟩

/-! ## Joining operands -/

def kindOf : Connective → BindTokenKind
  | .and => .and
  | .andNot => .andNot
  | .or => .or

theorem endsCondition_of_kindOf {t : BindToken} {c : Connective} (ht : t.kind = kindOf c) :
    endsCondition t = true := by
  cases c <;> simp [endsCondition, BindToken.isConnective, ht, kindOf]

section Level

variable {Operand : List BindToken → BindRule → Prop}

variable (Operand) in
inductive Others : List BindToken → List (Connective × BindRule) → Prop where
  | nil : Others [] []
  | cons {t : BindToken} {c : Connective} {ts us : List BindToken} {r : BindRule}
      {os : List (Connective × BindRule)} (ht : t.kind = kindOf c) (hr : Operand ts r)
      (hos : Others us os) :
      Others (t :: ts ++ us) ((c, r) :: os)

theorem joined_of_or {first : BindRule} {os : List (Connective × BindRule)} (hne : os ≠ [])
    (hor : ∀ o ∈ os, o.1 = .or) :
    joined first os = .ok (or (first :: os.map placed) false) := by
  have hall : (os.all fun o => o.1 == .or) = true := by simpa [List.all_eq_true] using hor
  simp [joined, hne, hall]

theorem joined_of_and {first : BindRule} {os : List (Connective × BindRule)} (hne : os ≠ [])
    (hand : ∀ o ∈ os, o.1 ≠ .or) :
    joined first os = .ok (and (first :: os.map placed) false) := by
  have hall : (os.all fun o => o.1 != .or) = true := by simpa [List.all_eq_true] using hand
  have hnot : (os.all fun o => o.1 == .or) = false := by
    cases os with
    | nil => exact absurd rfl hne
    | cons o os => simp [hand o (by simp)]
  simp [joined, hne, hall, hnot]

theorem joined_of_mixed {first : BindRule} {os : List (Connective × BindRule)} (hne : os ≠ [])
    (hor : ¬∀ o ∈ os, o.1 = .or) (hand : ¬∀ o ∈ os, o.1 ≠ .or) :
    joined first os = .error (.grammar .mixedConnectives) := by
  have hnot : (os.all fun o => o.1 == .or) = false := by simpa [List.all_eq_true] using hor
  have hnot' : (os.all fun o => o.1 != .or) = false := by simpa [List.all_eq_true] using hand
  simp [joined, hne, hnot, hnot']

theorem joined_eq_ok_iff {first r : BindRule} {os : List (Connective × BindRule)} :
    joined first os = .ok r ↔
      (os = [] ∧ r = first) ∨
      (os ≠ [] ∧ (∀ o ∈ os, o.1 = .or) ∧ r = or (first :: os.map placed) false) ∨
      (os ≠ [] ∧ (∀ o ∈ os, o.1 ≠ .or) ∧ r = and (first :: os.map placed) false) := by
  constructor
  · intro h
    by_cases hne : os = []
    · subst hne
      exact Or.inl ⟨rfl, (Except.ok.inj h).symm⟩
    · by_cases hor : ∀ o ∈ os, o.1 = .or
      · rw [joined_of_or hne hor] at h
        exact Or.inr (Or.inl ⟨hne, hor, (Except.ok.inj h).symm⟩)
      · by_cases hand : ∀ o ∈ os, o.1 ≠ .or
        · rw [joined_of_and hne hand] at h
          exact Or.inr (Or.inr ⟨hne, hand, (Except.ok.inj h).symm⟩)
        · rw [joined_of_mixed hne hor hand] at h
          cases h
  · rintro (⟨rfl, rfl⟩ | ⟨hne, hor, rfl⟩ | ⟨hne, hand, rfl⟩)
    · rfl
    · exact joined_of_or hne hor
    · exact joined_of_and hne hand

theorem Others.alternatives {ts : List BindToken} {os : List (Connective × BindRule)}
    (h : Others Operand ts os) (hor : ∀ o ∈ os, o.1 = .or) :
    Alternatives Operand ts (os.map placed) := by
  induction h with
  | nil => exact .nil
  | @cons t c ts us r os ht hr hos ih =>
      obtain rfl : c = .or := hor (c, r) (by simp)
      exact .or ht hr (ih fun o ho => hor o (by simp [ho]))

theorem Others.conjuncts {ts : List BindToken} {os : List (Connective × BindRule)}
    (h : Others Operand ts os) (hand : ∀ o ∈ os, o.1 ≠ .or) :
    Conjuncts Operand ts (os.map placed) := by
  induction h with
  | nil => exact .nil
  | @cons t c ts us r os ht hr hos ih =>
      have hrest := ih fun o ho => hand o (by simp [ho])
      cases c with
      | and => exact .and ht hr hrest
      | andNot => exact .andNot ht hr hrest
      | or => exact absurd rfl (hand (.or, r) (by simp))

theorem Alternatives.others {ts : List BindToken} {rs : List BindRule}
    (h : Alternatives Operand ts rs) :
    ∃ os, Others Operand ts os ∧ (∀ o ∈ os, o.1 = .or) ∧ os.map placed = rs := by
  induction h with
  | nil => exact ⟨[], .nil, by simp, rfl⟩
  | @or t ts us r rs ht hr hrs ih =>
      obtain ⟨os, hos, hor, rfl⟩ := ih
      exact ⟨(.or, r) :: os, .cons ht hr hos, by simpa using hor, rfl⟩

theorem Conjuncts.others {ts : List BindToken} {rs : List BindRule}
    (h : Conjuncts Operand ts rs) :
    ∃ os, Others Operand ts os ∧ (∀ o ∈ os, o.1 ≠ .or) ∧ os.map placed = rs := by
  induction h with
  | nil => exact ⟨[], .nil, by simp, rfl⟩
  | @and t ts us r rs ht hr hrs ih =>
      obtain ⟨os, hos, hand, rfl⟩ := ih
      exact ⟨(.and, r) :: os, .cons ht hr hos, by simpa using hand, rfl⟩
  | @andNot t ts us r rs ht hr hrs ih =>
      obtain ⟨os, hos, hand, rfl⟩ := ih
      exact ⟨(.andNot, r) :: os, .cons ht hr hos, by simpa using hand, rfl⟩

/-- A level is an operand with others behind it that join. -/
theorem level_iff {ts : List BindToken} {r : BindRule} :
    Level Operand ts r ↔
      ∃ us vs first os, ts = us ++ vs ∧ Operand us first ∧ Others Operand vs os ∧
        joined first os = .ok r := by
  constructor
  · intro h
    cases h with
    | single hr => exact ⟨ts, [], r, [], by simp, hr, .nil, rfl⟩
    | disjunction hr hrs hne =>
        obtain ⟨os, hos, hor, rfl⟩ := hrs.others
        refine ⟨_, _, _, os, rfl, hr, hos, joined_eq_ok_iff.2 (Or.inr (Or.inl ⟨?_, hor, rfl⟩))⟩
        simpa using hne
    | conjunction hr hrs hne =>
        obtain ⟨os, hos, hand, rfl⟩ := hrs.others
        refine ⟨_, _, _, os, rfl, hr, hos, joined_eq_ok_iff.2 (Or.inr (Or.inr ⟨?_, hand, rfl⟩))⟩
        simpa using hne
  · rintro ⟨us, vs, first, os, rfl, hfirst, hos, hjoined⟩
    rcases joined_eq_ok_iff.1 hjoined with ⟨rfl, rfl⟩ | ⟨hne, hor, rfl⟩ | ⟨hne, hand, rfl⟩
    · cases hos
      simpa using Level.single hfirst
    · exact .disjunction hfirst (hos.alternatives hor) (by simpa using hne)
    · exact .conjunction hfirst (hos.conjuncts hand) (by simpa using hne)

end Level

/-! ## Reading a rule -/

variable {limit fuel depth : Nat}

theorem ruleWith_eq_ok_iff {ts rest : List BindToken} {r : BindRule} :
    (ruleWith limit (fuel + 1) depth ts).result = .ok (r, rest) ↔
      ∃ first mid os, (operandWith limit fuel depth ts).result = .ok (first, mid) ∧
        (othersWith limit fuel depth mid).result = .ok (os, rest) ∧ joined first os = .ok r := by
  simp only [ruleWith, Journaled.result_bind, Journaled.result_lift, Journaled.result_pure,
    Outcome.bind_eq_ok, Except.ok.injEq, Prod.mk.injEq, Prod.exists]
  constructor
  · rintro ⟨first, mid, hfirst, os, rest', hos, r', hjoined, rfl, rfl⟩
    exact ⟨first, mid, os, hfirst, hos, hjoined⟩
  · rintro ⟨first, mid, os, hfirst, hos, hjoined⟩
    exact ⟨first, mid, hfirst, os, rest, hos, r, hjoined, rfl, rfl⟩

/-- An operand starts with a value or with an opening parenthesis. -/
theorem operandWith_head {ts rest : List BindToken} {r : BindRule}
    (h : (operandWith limit fuel depth ts).result = .ok (r, rest)) :
    ∃ t us, ts = t :: us ∧ (t.isValue = true ∨ t.kind = .openParen) := by
  cases fuel with
  | zero => simp [operandWith] at h
  | succ fuel =>
      cases ts with
      | nil => simp [operandWith] at h
      | cons t us =>
          refine ⟨t, us, rfl, ?_⟩
          cases hkind : t.kind <;> simp [operandWith, hkind] at h <;>
            simp [BindToken.isValue, hkind]

theorem operandWith_value {t : BindToken} {ts : List BindToken} (ht : t.isValue = true) :
    operandWith limit (fuel + 1) depth (t :: ts) = conditionFrom (t :: ts) := by
  cases hkind : t.kind <;> simp [BindToken.isValue, hkind] at ht
  simp [operandWith, hkind]

theorem operandWith_openParen_eq_ok_iff {t : BindToken} {ts rest : List BindToken} {r : BindRule}
    (ht : t.kind = .openParen) :
    (operandWith limit (fuel + 1) depth (t :: ts)).result = .ok (r, rest) ↔
      depth < limit ∧ ∃ inner closing,
        (ruleWith limit fuel (depth + 1) ts).result = .ok (inner, closing :: rest) ∧
          closing.kind = .closeParen ∧ r = inner.inParens := by
  by_cases hdepth : limit ≤ depth
  · simp [operandWith, ht, hdepth, Nat.not_lt_of_le hdepth]
  · simp only [operandWith, ht, hdepth, if_false, Journaled.result_bind, Outcome.bind_eq_ok,
      Prod.exists]
    constructor
    · rintro ⟨inner, mid, hinner, h⟩
      cases mid with
      | nil => simp at h
      | cons closing after =>
          by_cases hclosing : closing.kind = .closeParen
          · simp only [hclosing, beq_self_eq_true, if_true, Journaled.result_pure,
              Except.ok.injEq, Prod.mk.injEq] at h
            obtain ⟨rfl, rfl⟩ := h
            exact ⟨Nat.lt_of_not_le hdepth, inner, closing, hinner, hclosing, rfl⟩
          · simp [hclosing] at h
    · rintro ⟨-, inner, closing, hinner, hclosing, rfl⟩
      exact ⟨inner, closing :: rest, hinner, by simp [hclosing]⟩

theorem othersWith_connective_eq_ok_iff {t : BindToken} {c : Connective}
    {ts rest : List BindToken} {os : List (Connective × BindRule)} (ht : t.kind = kindOf c) :
    (othersWith limit (fuel + 1) depth (t :: ts)).result = .ok (os, rest) ↔
      ∃ r mid others, (operandWith limit fuel depth ts).result = .ok (r, mid) ∧
        (othersWith limit fuel depth mid).result = .ok (others, rest) ∧ os = (c, r) :: others := by
  have hstep : (othersWith limit (fuel + 1) depth (t :: ts)).result = .ok (os, rest) ↔
      ∃ r mid, (operandWith limit fuel depth ts).result = .ok (r, mid) ∧
        ∃ others rest', (othersWith limit fuel depth mid).result = .ok (others, rest') ∧
          (c, r) :: others = os ∧ rest' = rest := by
    cases c <;> simp only [othersWith, ht, kindOf, Journaled.result_bind, Journaled.result_pure,
      Outcome.bind_eq_ok, Except.ok.injEq, Prod.mk.injEq, Prod.exists]
  rw [hstep]
  constructor
  · rintro ⟨r, mid, hr, others, rest', hothers, rfl, rfl⟩
    exact ⟨r, mid, others, hr, hothers, rfl⟩
  · rintro ⟨r, mid, others, hr, hothers, rfl⟩
    exact ⟨r, mid, hr, others, rest, hothers, rfl, rfl⟩

def EndsLevel (ts : List BindToken) : Prop :=
  ∀ t ∈ ts.head?, t.kind = .closeParen

theorem othersWith_of_endsLevel {ts : List BindToken} (h : EndsLevel ts) :
    (othersWith limit (fuel + 1) depth ts).result = .ok ([], ts) := by
  cases ts with
  | nil => rfl
  | cons t ts =>
      have ht : t.kind = .closeParen := h t rfl
      simp [othersWith, ht]

/-- The operands of a level go on behind a connective and end otherwise. -/
theorem othersWith_head {ts rest : List BindToken} {os : List (Connective × BindRule)}
    (h : (othersWith limit fuel depth ts).result = .ok (os, rest)) :
    EndsLevel ts ∨ ∃ t us c, ts = t :: us ∧ t.kind = kindOf c := by
  cases fuel with
  | zero => simp [othersWith] at h
  | succ fuel =>
      cases ts with
      | nil => exact Or.inl (by simp [EndsLevel])
      | cons t us =>
          cases hkind : t.kind <;> simp [othersWith, hkind] at h
          case and => exact Or.inr ⟨t, us, .and, rfl, hkind⟩
          case andNot => exact Or.inr ⟨t, us, .andNot, rfl, hkind⟩
          case or => exact Or.inr ⟨t, us, .or, rfl, hkind⟩
          case closeParen => exact Or.inl (by simp [EndsLevel, hkind])

/-- What the readers take from the front of the tokens is derived by the grammar. -/
structure ReadersSound (limit fuel : Nat) : Prop where
  rule : ∀ depth ts r rest, (ruleWith limit fuel depth ts).result = .ok (r, rest) →
    ∃ used, ts = used ++ rest ∧ IsRule (limit - depth) used r
  operand : ∀ depth ts r rest, (operandWith limit fuel depth ts).result = .ok (r, rest) →
    ∃ used, ts = used ++ rest ∧ IsOperand (limit - depth) used r
  others : ∀ depth ts os rest, (othersWith limit fuel depth ts).result = .ok (os, rest) →
    ∃ used, ts = used ++ rest ∧ Others (IsOperand (limit - depth)) used os

namespace ReadersSound

variable {ts rest : List BindToken} {r : BindRule} {os : List (Connective × BindRule)}

theorem exists_rule (h : ReadersSound limit fuel)
    (hr : (ruleWith limit (fuel + 1) depth ts).result = .ok (r, rest)) :
    ∃ used, ts = used ++ rest ∧ IsRule (limit - depth) used r := by
  obtain ⟨first, mid, os, hfirst, hos, hjoined⟩ := ruleWith_eq_ok_iff.1 hr
  obtain ⟨us, rfl, hus⟩ := h.operand _ _ _ _ hfirst
  obtain ⟨vs, rfl, hvs⟩ := h.others _ _ _ _ hos
  exact ⟨us ++ vs, (List.append_assoc ..).symm,
    level_iff.2 ⟨us, vs, first, os, rfl, hus, hvs, hjoined⟩⟩

theorem exists_operand (h : ReadersSound limit fuel)
    (hr : (operandWith limit (fuel + 1) depth ts).result = .ok (r, rest)) :
    ∃ used, ts = used ++ rest ∧ IsOperand (limit - depth) used r := by
  obtain ⟨t, us, rfl, ht | ht⟩ := operandWith_head hr
  · rw [operandWith_value ht] at hr
    obtain ⟨used, hused, hcondition, -⟩ := conditionFrom_sound ht hr
    exact ⟨used, hused, .of_condition hcondition⟩
  · obtain ⟨hdepth, inner, closing, hinner, hclosing, rfl⟩ :=
      (operandWith_openParen_eq_ok_iff ht).1 hr
    obtain ⟨vs, rfl, hvs⟩ := h.rule _ _ _ _ hinner
    have hlimit : limit - depth = limit - (depth + 1) + 1 := by omega
    refine ⟨t :: vs ++ [closing], by simp, ?_⟩
    rw [hlimit]
    exact Or.inr (.intro ht hclosing hvs)

theorem exists_others (h : ReadersSound limit fuel)
    (hos : (othersWith limit (fuel + 1) depth ts).result = .ok (os, rest)) :
    ∃ used, ts = used ++ rest ∧ Others (IsOperand (limit - depth)) used os := by
  rcases othersWith_head hos with hend | ⟨t, us, c, rfl, ht⟩
  · rw [othersWith_of_endsLevel hend] at hos
    simp only [Except.ok.injEq, Prod.mk.injEq] at hos
    obtain ⟨rfl, rfl⟩ := hos
    exact ⟨[], rfl, .nil⟩
  · obtain ⟨r, mid, others, hr, hothers, rfl⟩ := (othersWith_connective_eq_ok_iff ht).1 hos
    obtain ⟨vs, rfl, hvs⟩ := h.operand _ _ _ _ hr
    obtain ⟨ws, rfl, hws⟩ := h.others _ _ _ _ hothers
    exact ⟨t :: vs ++ ws, by simp, .cons ht hvs hws⟩

end ReadersSound

theorem readers_sound (limit fuel : Nat) : ReadersSound limit fuel := by
  induction fuel with
  | zero =>
      constructor <;> intro depth ts r rest h
      · simp [ruleWith] at h
      · simp [operandWith] at h
      · simp [othersWith] at h
  | succ fuel ih =>
      exact {
        rule := fun _ _ _ _ => ih.exists_rule
        operand := fun _ _ _ _ => ih.exists_operand
        others := fun _ _ _ _ => ih.exists_others }

theorem IsCondition.three_le_length {ts : List BindToken} {r : BindRule}
    (h : IsCondition ts r) : 3 ≤ ts.length := by
  cases h with
  | @intro name comparison values k op v hname hop hne hvalues hkeyword hvalue =>
      have := List.length_pos_iff.2 hne
      simp only [List.length_cons]
      omega

theorem Level.three_le_length {Operand : List BindToken → BindRule → Prop}
    (hoperand : ∀ ts r, Operand ts r → 3 ≤ ts.length) {ts : List BindToken} {r : BindRule}
    (h : Level Operand ts r) : 3 ≤ ts.length := by
  obtain ⟨us, vs, first, os, rfl, hfirst, -, -⟩ := level_iff.1 h
  have := hoperand us first hfirst
  rw [List.length_append]
  omega

theorem IsOperand.three_le_length {depth : Nat} {ts : List BindToken} {r : BindRule}
    (h : IsOperand depth ts r) : 3 ≤ ts.length := by
  induction depth generalizing ts r with
  | zero => exact IsCondition.three_le_length h
  | succ depth ih =>
      rcases h with h | h
      · exact h.three_le_length
      · cases h with
        | intro hopen hclose hr =>
            have := Level.three_le_length (fun _ _ => ih) hr
            simp only [List.length_append, List.length_cons]
            omega

theorem IsRule.three_le_length {depth : Nat} {ts : List BindToken} {r : BindRule}
    (h : IsRule depth ts r) : 3 ≤ ts.length :=
  Level.three_le_length (fun _ _ => IsOperand.three_le_length) h

theorem EndsLevel.endsCondition {ts : List BindToken} (h : EndsLevel ts) : EndsCondition ts := by
  intro t ht
  simp [BindRule.endsCondition, h t ht]

theorem Others.endsCondition {Operand : List BindToken → BindRule → Prop}
    {ts rest : List BindToken} {os : List (Connective × BindRule)} (h : Others Operand ts os)
    (hrest : EndsLevel rest) : EndsCondition (ts ++ rest) := by
  cases h with
  | nil => exact hrest.endsCondition
  | @cons t c ts us r os ht hr hos =>
      intro u hu
      obtain rfl : t = u := by simpa using hu
      exact endsCondition_of_kindOf ht

/-- What the grammar derives the readers take, given two steps for each token. -/
structure ReadersComplete (limit fuel : Nat) : Prop where
  rule : ∀ depth ts r rest, IsRule (limit - depth) ts r → EndsLevel rest →
    2 * ts.length + 2 ≤ fuel → (ruleWith limit fuel depth (ts ++ rest)).result = .ok (r, rest)
  operand : ∀ depth ts r rest, IsOperand (limit - depth) ts r → EndsCondition rest →
    2 * ts.length ≤ fuel → (operandWith limit fuel depth (ts ++ rest)).result = .ok (r, rest)
  others : ∀ depth ts os rest, Others (IsOperand (limit - depth)) ts os → EndsLevel rest →
    2 * ts.length + 1 ≤ fuel →
    (othersWith limit fuel depth (ts ++ rest)).result = .ok (os, rest)

theorem IsCondition.operandWith_append {ts rest : List BindToken} {r : BindRule}
    (h : IsCondition ts r) (hrest : EndsCondition rest) :
    (operandWith limit (fuel + 1) depth (ts ++ rest)).result = .ok (r, rest) := by
  have hcomplete := conditionFrom_complete h hrest
  cases h with
  | intro hname hop hne hvalues hkeyword hvalue =>
      rwa [List.cons_append, operandWith_value hname]

namespace ReadersComplete

variable {ts rest : List BindToken} {r : BindRule} {os : List (Connective × BindRule)}

theorem ruleWith_append (ih : ReadersComplete limit fuel) (h : IsRule (limit - depth) ts r)
    (hrest : EndsLevel rest) (hfuel : 2 * ts.length + 2 ≤ fuel + 1) :
    (ruleWith limit (fuel + 1) depth (ts ++ rest)).result = .ok (r, rest) := by
  obtain ⟨us, vs, first, os, rfl, hfirst, hos, hjoined⟩ := level_iff.1 h
  rw [List.length_append] at hfuel
  have hpos := hfirst.three_le_length
  rw [List.append_assoc]
  exact ruleWith_eq_ok_iff.2 ⟨first, vs ++ rest, os,
    ih.operand _ _ _ _ hfirst (hos.endsCondition hrest) (by omega),
    ih.others _ _ _ _ hos hrest (by omega), hjoined⟩

theorem operandWith_append (ih : ReadersComplete limit fuel) (h : IsOperand (limit - depth) ts r)
    (hrest : EndsCondition rest) (hfuel : 2 * ts.length ≤ fuel + 1) :
    (operandWith limit (fuel + 1) depth (ts ++ rest)).result = .ok (r, rest) := by
  cases hdepth : limit - depth with
  | zero =>
      rw [hdepth] at h
      exact IsCondition.operandWith_append h hrest
  | succ d =>
      rw [hdepth] at h
      rcases h with h | h
      · exact h.operandWith_append hrest
      · cases h with
        | @intro opening closing us inner hopen hclose hr =>
            simp only [List.length_append, List.length_cons, List.length_nil] at hfuel
            have hd : d = limit - (depth + 1) := by omega
            have hinner := ih.rule (depth + 1) us inner (closing :: rest) (hd ▸ hr)
              (by simp [EndsLevel, hclose]) (by omega)
            rw [List.append_assoc, List.cons_append, List.singleton_append]
            exact (operandWith_openParen_eq_ok_iff hopen).2
              ⟨by omega, inner, closing, hinner, hclose, rfl⟩

theorem othersWith_append (ih : ReadersComplete limit fuel)
    (h : Others (IsOperand (limit - depth)) ts os) (hrest : EndsLevel rest)
    (hfuel : 2 * ts.length + 1 ≤ fuel + 1) :
    (othersWith limit (fuel + 1) depth (ts ++ rest)).result = .ok (os, rest) := by
  cases h with
  | nil => exact othersWith_of_endsLevel hrest
  | @cons t c us vs r os ht hr hos =>
      simp only [List.length_append, List.length_cons] at hfuel
      rw [List.append_assoc, List.cons_append]
      exact (othersWith_connective_eq_ok_iff ht).2 ⟨r, vs ++ rest, os,
        ih.operand _ _ _ _ hr (hos.endsCondition hrest) (by omega),
        ih.others _ _ _ _ hos hrest (by omega), rfl⟩

end ReadersComplete

theorem readers_complete (limit fuel : Nat) : ReadersComplete limit fuel := by
  induction fuel with
  | zero =>
      constructor <;> intro depth ts r rest h hrest hfuel
      · omega
      · have := h.three_le_length
        omega
      · omega
  | succ fuel ih =>
      exact {
        rule := fun _ _ _ _ => ih.ruleWith_append
        operand := fun _ _ _ _ => ih.operandWith_append
        others := fun _ _ _ _ => ih.othersWith_append }

theorem ofTokens_eq_ok_iff {whole : Text} {ts : List BindToken} {r : BindRule} :
    (ofTokens limit whole ts).result = .ok r ↔ IsRule limit ts r := by
  constructor
  · intro h
    unfold ofTokens at h
    split at h
    · simp at h
    · simp only [Journaled.result_bind, Outcome.bind_eq_ok, Prod.exists] at h
      obtain ⟨r', rest, hrule, hrest⟩ := h
      cases rest with
      | cons t rest => simp at hrest
      | nil =>
          obtain rfl : r' = r := by simpa using hrest
          obtain ⟨used, rfl, hused⟩ := (readers_sound limit _).rule _ _ _ _ hrule
          simpa using hused
  · intro h
    have hlength : ¬ ts.length < 3 := Nat.not_lt_of_le h.three_le_length
    have hrule := (readers_complete limit (steps ts)).rule 0 ts r [] h (by simp [EndsLevel])
      (Nat.le_refl _)
    rw [List.append_nil] at hrule
    simp only [ofTokens, hlength, if_false, Journaled.result_bind, Outcome.bind_eq_ok]
    exact ⟨(r, []), hrule, rfl⟩

/-- A text that reads as a rule has tokens that the grammar derives. -/
theorem isRule_of_parseWith {t : Text} {r : BindRule} (h : parseWith limit t = .ok r) :
    ∃ ts, BindToken.tokens t = .ok ts ∧ IsRule limit ts r := by
  simp only [parseWith, journaledParse, Journaled.result_bind, Journaled.result_lift,
    Journaled.result_leave, Outcome.bind_eq_ok] at h
  obtain ⟨ts, hts, -, -, hrule⟩ := h
  exact ⟨ts, hts, ofTokens_eq_ok_iff.1 hrule⟩

/-- A text whose tokens the grammar derives reads as the rule. -/
theorem parseWith_of_isRule {t : Text} {ts : List BindToken} {r : BindRule}
    (hts : BindToken.tokens t = .ok ts) (h : IsRule limit ts r) : parseWith limit t = .ok r := by
  simp only [parseWith, journaledParse, Journaled.result_bind, Journaled.result_lift,
    Journaled.result_leave, Outcome.bind_eq_ok]
  exact ⟨ts, hts, (), trivial, ofTokens_eq_ok_iff.2 h⟩

/-- Reading accepts exactly the texts whose tokens the grammar derives, with the rule derived. -/
theorem parseWith_iff_isRule {t : Text} {r : BindRule} :
    parseWith limit t = .ok r ↔ ∃ ts, BindToken.tokens t = .ok ts ∧ IsRule limit ts r :=
  ⟨isRule_of_parseWith, fun ⟨_, hts, h⟩ => parseWith_of_isRule hts h⟩

end BindRule

end DirectoryAccess
