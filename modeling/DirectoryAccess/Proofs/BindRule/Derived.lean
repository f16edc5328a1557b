import DirectoryAccess.Proofs.BindRule.Items

/-!
# Derived rules are written as they were read

A rule that tokens derive is placed, and every group below its root carries its
parentheses.  Its own written tokens derive it again under the same limit: the
parentheses that reading drops, those doubled and those around a lone rule, are
not written, and no others are added.
-/

namespace DirectoryAccess

/-- What the condition writes between quotes can stand there and reads as its value. -/
structure Condition.ReadsBack (c : Condition) : Prop where
  closed : c.value.text.isClosed = true
  value : Value.parseBind c.keyword c.value.text = .ok c.value

namespace BindRule

/-- A placed rule that may be written as an operand without parentheses of its own. -/
structure IsOperandForm (r : BindRule) : Prop where
  isNot : r.isNot = false
  isOpenGroup : r.isOpenGroup = false
  isPlaced : r.isPlaced = true

/-- A placed rule that may be written alone. -/
structure IsRootForm (r : BindRule) : Prop where
  isNot : r.isNot = false
  isPlaced : r.isPlaced = true

theorem IsOperandForm.root {r : BindRule} (h : IsOperandForm r) : IsRootForm r :=
  ⟨h.isNot, h.isPlaced⟩

theorem IsRootForm.operandForm_inParens {r : BindRule} (h : IsRootForm r) :
    IsOperandForm r.inParens := by
  obtain ⟨hnot, hplaced⟩ := h
  cases r with
  | condition c => exact ⟨rfl, rfl, rfl⟩
  | and os p => exact ⟨rfl, rfl, hplaced⟩
  | or os p => exact ⟨rfl, rfl, hplaced⟩
  | not o => cases hnot

theorem IsCondition.operandForm {ts : List BindToken} {r : BindRule} (h : IsCondition ts r) :
    IsOperandForm r := by
  cases h with
  | intro => exact ⟨rfl, rfl, rfl⟩

section Level

variable {Operand : List BindToken → BindRule → Prop}
variable (hoperand : ∀ ts r, Operand ts r → IsOperandForm r)

include hoperand

theorem Alternatives.placed {ts : List BindToken} {rs : List BindRule}
    (h : Alternatives Operand ts rs) : rs.any isNot = false ∧ allPlaced rs = true := by
  induction h with
  | nil => exact ⟨rfl, rfl⟩
  | or ht hr hrs ih =>
      have hform := hoperand _ _ hr
      exact ⟨by rw [List.any_cons, hform.isNot, ih.1]; rfl,
        allPlaced_cons_iff.2 ⟨hform.isPlaced, ih.2⟩⟩

theorem Conjuncts.placed {ts : List BindToken} {rs : List BindRule}
    (h : Conjuncts Operand ts rs) : allPlaced rs = true := by
  induction h with
  | nil => rfl
  | and ht hr hrs ih => exact allPlaced_cons_iff.2 ⟨(hoperand _ _ hr).isPlaced, ih⟩
  | andNot ht hr hrs ih =>
      have hform := hoperand _ _ hr
      exact allPlaced_cons_iff.2 ⟨isPlaced_not_iff.2 ⟨hform.isNot, hform.isPlaced⟩, ih⟩

theorem Level.rootForm {ts : List BindToken} {r : BindRule} (h : Level Operand ts r) :
    IsRootForm r := by
  cases h with
  | single hr => exact (hoperand _ _ hr).root
  | disjunction hr hrs hne =>
      have hform := hoperand _ _ hr
      have hothers := hrs.placed hoperand
      exact ⟨rfl, isPlaced_or_iff.2 ⟨_, _, rfl, hform.isNot, hothers.1, hform.isPlaced, hothers.2⟩⟩
  | conjunction hr hrs hne =>
      have hform := hoperand _ _ hr
      have hothers := hrs.placed hoperand
      exact ⟨rfl, isPlaced_and_iff.2 ⟨_, _, rfl, hform.isNot, hform.isPlaced, hothers⟩⟩

end Level

theorem IsOperand.operandForm {n : Nat} {ts : List BindToken} {r : BindRule}
    (h : IsOperand n ts r) : IsOperandForm r := by
  induction n generalizing ts r with
  | zero => exact IsCondition.operandForm h
  | succ n ih =>
      rcases h with h | h
      · exact h.operandForm
      · cases h with
        | intro hopen hclose hr => exact (Level.rootForm (fun _ _ => ih) hr).operandForm_inParens

theorem IsRule.rootForm {n : Nat} {ts : List BindToken} {r : BindRule} (h : IsRule n ts r) :
    IsRootForm r :=
  Level.rootForm (fun _ _ => IsOperand.operandForm) h

theorem IsOperandForm.pieces_eq {r : BindRule} (h : IsOperandForm r) (below : Bool) :
    r.pieces below = r.pieces false := by
  obtain ⟨hnot, hgroup, -⟩ := h
  cases r with
  | condition c => rw [pieces, pieces]
  | and os p | or os p =>
      simp only [BindRule.isOpenGroup, Bool.not_eq_false'] at hgroup
      rw [pieces, pieces, hgroup, Bool.true_or, Bool.true_or]
  | not o => cases hnot

/-- Parentheses are written once, however often the rule was put in parentheses. -/
theorem IsRootForm.spelled_inParens {r : BindRule} (h : IsRootForm r) (below : Bool) :
    (r.inParens = r ∧ IsOperandForm r) ∨
      spelled (r.inParens.pieces below) = spelled (Piece.enclosed true (r.pieces false)) := by
  obtain ⟨hnot, hplaced⟩ := h
  cases r with
  | condition c =>
      obtain ⟨k, op, v, p⟩ := c
      cases p with
      | false =>
          right
          rw [inParens, pieces, pieces]
          rfl
      | true => exact Or.inl ⟨rfl, rfl, rfl, rfl⟩
  | and os p | or os p =>
      cases p with
      | false =>
          right
          rw [inParens, pieces, pieces, Bool.true_or, Bool.false_or]
          rfl
      | true => exact Or.inl ⟨rfl, rfl, rfl, hplaced⟩
  | not o => cases hnot

/-- What is read from the tokens of a condition is derived from its written form. -/
theorem IsCondition.written {ts : List BindToken} {c : Condition} (h : IsCondition ts (condition c))
    (hread : Value.parseBind c.keyword c.value.text = .ok c.value) :
    IsCondition (spelled [.condition c]) (condition c) := by
  cases h with
  | @intro name comparison values k op v hname hop hne hvalues hkeyword hvalue =>
      refine .intro rfl rfl (List.cons_ne_nil _ _) ?_ k.parse_name ?_
      · simp [BindToken.isValue]
      · simpa [spell, Text.join, Condition.make] using hread

section Level

variable {n : Nat} {ts : List BindToken}
variable (hoperand : ∀ ts r, IsOperand n ts r → ReadsBack r.conditions →
  IsOperand n (spelled (r.pieces true)) r)

include hoperand

theorem Alternatives.written {rs : List BindRule} (h : Alternatives (IsOperand n) ts rs)
    (hread : ReadsBack (conditionsOfAll rs)) :
    Alternatives (IsOperand n) (spelled (linkedPieces .or rs)) rs := by
  induction h with
  | nil => exact .nil
  | @or t ts us r rs ht hr hrs ih =>
      rw [conditionsOfAll, readsBack_append] at hread
      rw [linkedPieces, hr.operandForm.isNot, List.cons_append, spelled_cons, spelled_append,
        ← List.append_assoc]
      exact .or rfl (hoperand _ r hr hread.1) (ih hread.2)

theorem Conjuncts.written {rs : List BindRule} (h : Conjuncts (IsOperand n) ts rs)
    (hread : ReadsBack (conditionsOfAll rs)) :
    Conjuncts (IsOperand n) (spelled (linkedPieces .and rs)) rs := by
  induction h with
  | nil => exact .nil
  | @and t ts us r rs ht hr hrs ih =>
      rw [conditionsOfAll, readsBack_append] at hread
      rw [linkedPieces, hr.operandForm.isNot, List.cons_append, spelled_cons, spelled_append,
        ← List.append_assoc]
      exact .and rfl (hoperand _ r hr hread.1) (ih hread.2)
  | @andNot t ts us r rs ht hr hrs ih =>
      rw [conditionsOfAll, readsBack_append] at hread
      rw [linkedPieces, List.cons_append, spelled_cons, spelled_append, ← List.append_assoc]
      exact .andNot rfl (hoperand _ r hr hread.1) (ih hread.2)

theorem Level.written {r : BindRule} (h : Level (IsOperand n) ts r)
    (hread : ReadsBack r.conditions) : Level (IsOperand n) (spelled (r.pieces false)) r := by
  cases h with
  | single hr =>
      have hwritten := hoperand _ r hr hread
      rw [hr.operandForm.pieces_eq] at hwritten
      exact .single hwritten
  | @disjunction ts us r rs hr hrs hne =>
      rw [conditions, conditionsOfAll, readsBack_append] at hread
      have hothers := hrs.written hoperand hread.2
      have hlevel := Level.disjunction (hoperand _ r hr hread.1) hothers hne
      rwa [pieces, linkedPieces, List.cons_append, List.tail_cons, Bool.or_false, Piece.enclosed,
        if_neg Bool.false_ne_true, spelled_append]
  | @conjunction ts us r rs hr hrs hne =>
      rw [conditions, conditionsOfAll, readsBack_append] at hread
      have hothers := hrs.written hoperand hread.2
      have hlevel := Level.conjunction (hoperand _ r hr hread.1) hothers hne
      rwa [pieces, linkedPieces, List.cons_append, List.tail_cons, Bool.or_false, Piece.enclosed,
        if_neg Bool.false_ne_true, spelled_append]

end Level

theorem conditions_inParens_readsBack {r : BindRule} (h : ReadsBack r.inParens.conditions) :
    ReadsBack r.conditions := by
  induction r using BindRule.inParens.induct with
  | case1 c =>
      intro d hd
      rw [conditions, List.mem_singleton] at hd
      subst hd
      exact h { d with parenthesized := true } (by simp [inParens, conditions])
  | case2 os p => rwa [inParens, conditions] at h
  | case3 os p => rwa [inParens, conditions] at h
  | case4 o ih =>
      rw [inParens, conditions] at h
      rw [conditions]
      exact ih h

theorem IsOperand.written {n : Nat} {ts : List BindToken} {r : BindRule} (h : IsOperand n ts r)
    (hread : ReadsBack r.conditions) : IsOperand n (spelled (r.pieces true)) r := by
  have hcondition {ts : List BindToken} {r : BindRule} (h : IsCondition ts r)
      (hread : ReadsBack r.conditions) : IsCondition (spelled (r.pieces true)) r := by
    cases h with
    | intro hname hop hne hvalues hkeyword hvalue =>
        rw [pieces]
        refine IsCondition.written (.intro hname hop hne hvalues hkeyword hvalue) ?_
        exact hread _ (by simp [conditions])
  induction n generalizing ts r with
  | zero => exact hcondition h hread
  | succ n ih =>
      rcases h with h | h
      · exact Or.inl (hcondition h hread)
      · cases h with
        | @intro opening closing ts inner hopen hclose hr =>
            have hform := IsRule.rootForm hr
            have hread := conditions_inParens_readsBack hread
            have hlevel := Level.written (fun _ _ => ih) hr hread
            rcases hform.spelled_inParens true with ⟨heq, hoperand⟩ | hspelled
            · -- The inner rule carries parentheses already; the outer ones are not written.
              rw [heq, hoperand.pieces_eq]
              cases hr with
              | single h =>
                  have hwritten := ih h hread
                  rw [hoperand.pieces_eq] at hwritten
                  obtain ⟨height, hle, -, hderives⟩ := IsOperand.hasHeight n _ _ hwritten
                  exact hderives (n + 1) (Nat.le_succ_of_le hle)
              | disjunction => cases hoperand.isOpenGroup
              | conjunction => cases hoperand.isOpenGroup
            · rw [hspelled, Piece.enclosed, if_pos rfl, List.cons_append, spelled_cons,
                spelled_append]
              exact Or.inr (.intro rfl rfl hlevel)

theorem tokens_blank_cons_eq_ok_iff {t : Text} {ts : List BindToken} :
    BindToken.tokens (' ' :: t) = .ok ts ↔ BindToken.tokens t = .ok ts := by
  rw [BindToken.tokens_eq_ok_iff, BindToken.tokens_eq_ok_iff,
    BindToken.reader.scan_separator (by decide)]

theorem parseWith_blank_cons_eq_ok_iff {limit : Nat} {t : Text} {r : BindRule} :
    parseWith limit (' ' :: t) = .ok r ↔ parseWith limit t = .ok r := by
  constructor
  · intro h
    obtain ⟨ts, hts, hrule⟩ := isRule_of_parseWith h
    exact parseWith_of_isRule (tokens_blank_cons_eq_ok_iff.1 hts) hrule
  · intro h
    obtain ⟨ts, hts, hrule⟩ := isRule_of_parseWith h
    exact parseWith_of_isRule (tokens_blank_cons_eq_ok_iff.2 hts) hrule

/-- A keyword, an operator and a closed run that is a value are read as a condition. -/
theorem parseWith_front_quote {limit : Nat} {c : Condition} {raw : Text}
    (hclosed : raw.isClosed = true) (hvalue : Value.parseBind c.keyword raw = .ok c.value) :
    parseWith limit (c.front ++ Text.quote raw) = .ok (condition c.bare) := by
  have hne : raw ≠ [] := by
    rintro rfl
    rw [parseBind_nil] at hvalue
    cases hvalue
  have hquote : Text.quote raw = '"' :: (raw ++ '"' :: []) := rfl
  have hscan : BindToken.reader.scan (c.front ++ Text.quote raw) = .ok
      [⟨.value false, c.keyword.name⟩, ⟨.operator c.op, c.op.symbol⟩, ⟨.value true, raw⟩] := by
    rw [hquote, c.scan_front, BindToken.scan_quote (Text.closeRun?_of_isClosed hclosed []),
      TokenReader.scan_nil]
    rfl
  have htokens : BindToken.tokens (c.front ++ Text.quote raw) = .ok
      [⟨.value false, c.keyword.name⟩, ⟨.operator c.op, c.op.symbol⟩, ⟨.value true, raw⟩] := by
    refine BindToken.tokens_eq_ok_iff.2 ⟨_, hscan, rfl, ?_⟩
    have hsymbol : c.op.symbol ≠ [] := by cases c.op <;> decide
    simp [c.keyword.name_ne_nil, hsymbol, hne]
  refine parseWith_of_isRule htokens (.single (.of_condition ?_))
  refine .intro rfl rfl (List.cons_ne_nil _ _) ?_ c.keyword.parse_name ?_
  · simp [BindToken.isValue]
  · simpa [spell, Text.join] using hvalue

/-- A condition that reads back is read from its own text. -/
theorem parseWith_text_condition {limit : Nat} {c : Condition}
    (hclosed : c.value.text.isClosed = true)
    (hvalue : Value.parseBind c.keyword c.value.text = .ok c.value) :
    parseWith limit (condition c.bare).text = .ok (condition c.bare) := by
  have htext : (condition c.bare).text = c.front ++ Text.quote c.value.text := by
    simp [text, Condition.text, Condition.front, Condition.bare, Condition.make, Text.enclose]
  rw [htext]
  exact parseWith_front_quote hclosed hvalue

/-- A rule that was read is read from its own text, if its values are closed and read back. -/
theorem parseWith_text_of_parseWith {limit : Nat} {t : Text} {r : BindRule}
    (h : parseWith limit t = .ok r) (hclosed : ∀ c ∈ r.conditions, c.value.text.isClosed = true)
    (hread : ReadsBack r.conditions) : parseWith limit r.text = .ok r := by
  obtain ⟨ts, -, hrule⟩ := isRule_of_parseWith h
  have hform := IsRule.rootForm hrule
  have htokens := tokens_text hform.isPlaced hform.isNot hclosed hread.text_ne_nil
  exact parseWith_of_isRule htokens (Level.written (fun _ _ => IsOperand.written) hrule hread)

theorem IsRootForm.text_pieces {r : BindRule} (h : r.IsRootForm) :
    (r.pieces false).flatMap Piece.text = r.text := by
  rw [BindRule.text_pieces false _ h.isPlaced h.isNot]
  rfl

/-- What is read from a rule whose values are closed has the values of their texts. -/
theorem readsBack_of_parseWith_text {limit : Nat} {r : BindRule} (hform : r.IsRootForm)
    (hclosed : ∀ c ∈ r.conditions, c.value.text.isClosed = true)
    (h : parseWith limit r.text = .ok r) : ReadsBack r.conditions := by
  obtain ⟨ts, htokens, hrule⟩ := isRule_of_parseWith h
  obtain ⟨found, hscan, rfl, -⟩ := BindToken.tokens_eq_ok_iff.1 htokens
  have hpieces (c : Condition) (hc : .condition c ∈ r.pieces false) :
      c.value.text.isClosed = true := by
    refine hclosed c ?_
    rw [← conditions_pieces false r]
    exact Piece.mem_filterMap_condition?.2 hc
  rw [← hform.text_pieces] at hscan
  have hall := Piece.forall₂_of_leaves (isChain_pieces false r) hpieces hscan hrule.leaves
  rw [conditions_pieces, List.forall₂_map_right_iff, List.forall₂_same] at hall
  exact fun c hc => (hall c hc).2

end BindRule

end DirectoryAccess
