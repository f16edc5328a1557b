import DirectoryAccess.Proofs.Outcome
import DirectoryAccess.Proofs.Token.Target
import DirectoryAccess.TargetRule.Parser
import Mathlib.Data.List.Nodup

/-!
# The grammar of target rules

Which tokens the reader of target rules accepts, and which rule it builds from
them.  A rule that is read holds each keyword once and no more clauses than it
may.
-/

namespace DirectoryAccess

namespace TargetRule

/-- The tokens of quoted values up to the parenthesis that closes the clause. -/
def valueTokens : List Text → List TargetToken
  | [] => [.closeParen]
  | [v] => [.value v, .closeParen]
  | v :: vs => .value v :: .bars :: valueTokens vs

theorem valueTokens_cons {v : Text} {vs : List Text} (hne : vs ≠ []) :
    valueTokens (v :: vs) = .value v :: .bars :: valueTokens vs := by
  cases vs with
  | nil => exact absurd rfl hne
  | cons w vs => rfl

theorem valuesFrom_eq_ok_iff {k : TargetKeyword} {tokens rest : List TargetToken}
    {raws : List Text} :
    valuesFrom k tokens = .ok (raws, rest) ↔ raws ≠ [] ∧ tokens = valueTokens raws ++ rest := by
  constructor
  · intro h
    fun_induction valuesFrom k tokens generalizing raws with
    | case1 v inner ih =>
        obtain ⟨⟨vs, after⟩, hinner, heq⟩ := Outcome.map_eq_ok.1 h
        obtain ⟨rfl, rfl⟩ := Prod.mk.inj heq
        obtain ⟨hne, rfl⟩ := ih hinner
        exact ⟨List.cons_ne_nil _ _, by rw [valueTokens_cons hne]; rfl⟩
    | case2 v inner =>
        cases h
        exact ⟨List.cons_ne_nil _ _, rfl⟩
    | case3 => cases h
    | case4 => cases h
  · rintro ⟨hne, rfl⟩
    induction raws with
    | nil => exact absurd rfl hne
    | cons v vs ih =>
        cases vs with
        | nil => rfl
        | cons w vs =>
            rw [valueTokens_cons (List.cons_ne_nil w vs), List.cons_append, List.cons_append,
              valuesFrom, ih (List.cons_ne_nil w vs)]
            rfl

inductive IsClause : List TargetToken → Clause → Prop where
  | intro {name : Text} {k : TargetKeyword} {op : Operator} {raws : List Text} {v : Value}
      (hkeyword : TargetKeyword.parse name = .ok k) (hne : raws ≠ [])
      (hvalue : Value.parseTarget k raws = .ok v) :
      IsClause (.openParen :: .keyword name :: .operator op :: valueTokens raws) ⟨k, op, v⟩

theorem clauseFrom_eq_ok_iff {tokens rest : List TargetToken} {c : Clause} :
    clauseFrom tokens = .ok (c, rest) ↔ ∃ used, tokens = used ++ rest ∧ IsClause used c := by
  constructor
  · intro h
    unfold clauseFrom at h
    split at h
    · rename_i name inner
      obtain ⟨k, hkeyword, h⟩ := Outcome.bind_eq_ok.1 h
      split at h
      · rename_i op values
        obtain ⟨⟨raws, after⟩, hvalues, h⟩ := Outcome.bind_eq_ok.1 h
        obtain ⟨v, hvalue, h⟩ := Outcome.bind_eq_ok.1 h
        cases h
        obtain ⟨hne, rfl⟩ := valuesFrom_eq_ok_iff.1 hvalues
        exact ⟨_, rfl, .intro hkeyword hne hvalue⟩
      · cases h
    · cases h
  · rintro ⟨used, rfl, hclause⟩
    cases hclause with
    | @intro name k op raws v hkeyword hne hvalue =>
        have hvalues : valuesFrom k (valueTokens raws ++ rest) = .ok (raws, rest) :=
          valuesFrom_eq_ok_iff.2 ⟨hne, rfl⟩
        simp only [List.cons_append, clauseFrom, hkeyword, bind, Except.bind, hvalues, hvalue,
          pure, Except.pure]

inductive AreClauses : List TargetToken → List Clause → Prop where
  | nil : AreClauses [] []
  | cons {ts us : List TargetToken} {c : Clause} {cs : List Clause} (hc : IsClause ts c)
      (hcs : AreClauses us cs) : AreClauses (ts ++ us) (c :: cs)

theorem IsClause.ne_nil {ts : List TargetToken} {c : Clause} (h : IsClause ts c) : ts ≠ [] := by
  cases h with
  | intro => exact List.cons_ne_nil _ _

theorem AreClauses.eq_nil_iff {ts : List TargetToken} {cs : List Clause} (h : AreClauses ts cs) :
    ts = [] ↔ cs = [] := by
  cases h with
  | nil => simp
  | cons hc hcs => simp [hc.ne_nil]

/-- Clauses are read up to the end of the tokens and pushed in order. -/
theorem pushClauses_eq_ok_iff {r r' : TargetRule} {tokens : List TargetToken} :
    (pushClauses r tokens).result = .ok r' ↔ ∃ cs, AreClauses tokens cs ∧ cs.foldl push r = r' := by
  constructor
  · intro h
    fun_induction pushClauses r tokens with
    | case1 r tokens hempty =>
        cases h
        rw [List.isEmpty_iff.1 hempty]
        exact ⟨[], .nil, rfl⟩
    | case2 => cases h
    | case3 r tokens hempty c rest hclause ih =>
        simp only [Journaled.result_bind, Journaled.result_leave, Outcome.bind_eq_ok] at h
        obtain ⟨-, -, h⟩ := h
        obtain ⟨cs, hcs, rfl⟩ := ih h
        obtain ⟨used, rfl, hused⟩ := clauseFrom_eq_ok_iff.1 hclause
        exact ⟨c :: cs, .cons hused hcs, rfl⟩
  · rintro ⟨cs, hcs, rfl⟩
    induction hcs generalizing r with
    | nil =>
        rw [pushClauses]
        rfl
    | @cons ts us c cs hc hcs ih =>
        have hclause : clauseFrom (ts ++ us) = .ok (c, us) := clauseFrom_eq_ok_iff.2 ⟨ts, rfl, hc⟩
        rw [pushClauses, if_neg (by simp [hc.ne_nil])]
        split
        · rename_i heq
          rw [hclause] at heq
          cases heq
        · rename_i heq
          rw [hclause] at heq
          cases heq
          simp only [Journaled.result_bind, Journaled.result_leave, Outcome.bind_eq_ok]
          exact ⟨(), trivial, ih⟩

/-- No two clauses share a keyword, and there are not too many of them. -/
structure IsDistinct (r : TargetRule) : Prop where
  keywords : (r.clauses.map Clause.keyword).Nodup
  size : r.clauses.length ≤ mostClauses

theorem isDistinct_empty : IsDistinct empty :=
  ⟨List.nodup_nil, Nat.zero_le _⟩

theorem contains_eq_false_iff {r : TargetRule} {k : TargetKeyword} :
    r.contains k = false ↔ k ∉ r.clauses.map Clause.keyword := by
  rw [contains, List.any_eq_false, List.mem_map]
  simp

theorem IsDistinct.push {r : TargetRule} (h : IsDistinct r) (c : Clause) :
    IsDistinct (r.push c) := by
  unfold TargetRule.push
  split
  · exact h
  · rename_i hnot
    split
    · exact h
    · rename_i hsize
      rw [Bool.not_eq_true, contains_eq_false_iff] at hnot
      refine ⟨?_, ?_⟩
      · rw [List.map_append, List.map_singleton, ← List.concat_eq_append]
        exact h.keywords.concat hnot
      · rw [List.length_append, List.length_singleton]
        exact Nat.lt_of_not_le hsize

theorem IsDistinct.foldl_push {r : TargetRule} (h : IsDistinct r) (cs : List Clause) :
    IsDistinct (cs.foldl TargetRule.push r) := by
  induction cs generalizing r with
  | nil => exact h
  | cons c cs ih => exact ih (h.push c)

theorem push_clauses_sublist (r : TargetRule) (c : Clause) :
    (r.push c).clauses.Sublist (r.clauses ++ [c]) := by
  unfold push
  split
  · exact List.sublist_append_left _ _
  · split
    · exact List.sublist_append_left _ _
    · exact List.Sublist.refl _

theorem foldl_push_sublist (r : TargetRule) (cs : List Clause) :
    (cs.foldl push r).clauses.Sublist (r.clauses ++ cs) := by
  induction cs generalizing r with
  | nil => simp
  | cons c cs ih =>
      have hfirst := (push_clauses_sublist r c).append_right cs
      rw [List.append_assoc, List.singleton_append] at hfirst
      exact (ih (r.push c)).trans hfirst

theorem isPrefix_push (r : TargetRule) (c : Clause) : r.clauses <+: (r.push c).clauses := by
  unfold push
  split
  · exact List.prefix_refl _
  · split
    · exact List.prefix_refl _
    · exact List.prefix_append _ _

/-- A clause that stands in a rule stays where it is. -/
theorem isPrefix_foldl_push (r : TargetRule) (cs : List Clause) :
    r.clauses <+: (cs.foldl push r).clauses := by
  induction cs generalizing r with
  | nil => exact List.prefix_refl _
  | cons c cs ih => exact (isPrefix_push r c).trans (ih (r.push c))

/-- Clauses that may stand together are all kept. -/
theorem foldl_push_eq {r : TargetRule} {cs : List Clause} (h : IsDistinct ⟨r.clauses ++ cs⟩) :
    cs.foldl push r = ⟨r.clauses ++ cs⟩ := by
  induction cs generalizing r with
  | nil => simp
  | cons c cs ih =>
      have hnot : r.contains c.keyword = false := by
        rw [contains_eq_false_iff]
        have hkeywords := h.keywords
        rw [List.map_append, List.map_cons, List.nodup_append] at hkeywords
        exact fun hmem => hkeywords.2.2 _ hmem _ (by simp) rfl
      have hsize : ¬mostClauses ≤ r.size := by
        have hlength := h.size
        rw [List.length_append, List.length_cons] at hlength
        rw [size]
        omega
      have hpush : r.push c = ⟨r.clauses ++ [c]⟩ := by
        rw [push, hnot, if_neg Bool.false_ne_true, if_neg hsize]
      have hlist : r.clauses ++ c :: cs = (r.push c).clauses ++ cs := by
        rw [hpush, List.append_assoc, List.singleton_append]
      rw [List.foldl_cons, hlist]
      rw [hlist] at h
      exact ih h

theorem parse_eq_ok_iff {t : Text} {r : TargetRule} :
    parse t = .ok r ↔
      ∃ ts cs, TargetToken.reader.scan t = .ok ts ∧ AreClauses ts cs ∧ cs.foldl push empty = r := by
  simp only [parse, journaledParse, Journaled.result_bind, Journaled.result_lift,
    Journaled.result_leave, Outcome.bind_eq_ok, TargetToken.tokens_eq_ok_iff,
    pushClauses_eq_ok_iff]
  constructor
  · rintro ⟨ts, hts, -, -, cs, hcs, rfl⟩
    exact ⟨ts, cs, hts, hcs, rfl⟩
  · rintro ⟨ts, cs, hts, hcs, rfl⟩
    exact ⟨ts, hts, (), trivial, cs, hcs, rfl⟩

/-- A rule that was read holds each keyword once. -/
theorem isDistinct_of_parse {t : Text} {r : TargetRule} (h : parse t = .ok r) : IsDistinct r := by
  obtain ⟨ts, cs, -, -, rfl⟩ := parse_eq_ok_iff.1 h
  exact isDistinct_empty.foldl_push cs

end TargetRule

end DirectoryAccess
