import DirectoryAccess.Proofs.TargetRule.Grammar

/-!
# The first clause of each keyword

Pushing clauses onto the empty rule keeps the first clause of each keyword, in
order.  The bound on the number of clauses takes nothing more away: there are no
more keywords than clauses that fit.
-/

namespace DirectoryAccess

namespace TargetRule

/-- The clauses whose keyword no clause before them has. -/
def firsts : List Clause → List Clause
  | [] => []
  | c :: cs => c :: (firsts cs).filter fun d => d.keyword != c.keyword

/-- The first clause of a keyword is the one that is kept. -/
theorem find?_firsts (k : TargetKeyword) (cs : List Clause) :
    (firsts cs).find? (fun c => c.keyword == k) = cs.find? fun c => c.keyword == k := by
  induction cs with
  | nil => rfl
  | cons c cs ih =>
      rw [firsts]
      by_cases hk : c.keyword = k
      · rw [List.find?_cons_of_pos (by simp [hk]), List.find?_cons_of_pos (by simp [hk])]
      · have hkept (d : Clause) :
            decide ((d.keyword != c.keyword) = true ∧ (d.keyword == k) = true) =
              (d.keyword == k) := by
          by_cases hd : d.keyword = k
          · simp [hd, Ne.symm hk]
          · simp [hd]
        rw [List.find?_cons_of_neg (by simp [hk]), List.find?_cons_of_neg (by simp [hk]),
          List.find?_filter, ← ih, funext hkept]

section Push

variable {r : TargetRule}

/-- A rule of distinct keywords has room for every keyword that it does not hold. -/
theorem IsDistinct.size_lt (h : IsDistinct r) {k : TargetKeyword} (hk : r.contains k = false) :
    r.size < mostClauses := by
  have hnodup : (k :: r.clauses.map Clause.keyword).Nodup :=
    List.nodup_cons.2 ⟨contains_eq_false_iff.1 hk, h.keywords⟩
  have hlength := hnodup.length_le_of_subset fun l _ => l.mem_all
  rw [List.length_cons, List.length_map] at hlength
  exact hlength

theorem IsDistinct.clauses_push (h : IsDistinct r) (c : Clause) :
    (r.push c).clauses = r.clauses ++ if r.contains c.keyword then [] else [c] := by
  unfold TargetRule.push
  cases hc : r.contains c.keyword with
  | true => simp
  | false =>
      have hroom := h.size_lt hc
      rw [if_neg Bool.false_ne_true, if_neg (Nat.not_le_of_lt hroom), if_neg Bool.false_ne_true]

theorem contains_eq_of_clauses {s : TargetRule} {cs : List Clause}
    (h : s.clauses = r.clauses ++ cs) (k : TargetKeyword) :
    s.contains k = (r.contains k || cs.any fun c => c.keyword == k) := by
  rw [contains, h, List.any_append, contains]

end Push

/-- Behind the clauses of a rule, pushing keeps the first clause of each new keyword. -/
theorem IsDistinct.clauses_foldl_push {r : TargetRule} (h : IsDistinct r) (cs : List Clause) :
    (cs.foldl TargetRule.push r).clauses =
      r.clauses ++ (firsts cs).filter fun d => !r.contains d.keyword := by
  induction cs generalizing r with
  | nil => simp [firsts]
  | cons c cs ih =>
      have hpush := h.clauses_push c
      rw [List.foldl_cons, ih (h.push c), hpush, firsts, List.append_assoc]
      congr 1
      cases hc : r.contains c.keyword with
      | true =>
          rw [if_pos rfl, List.nil_append, List.filter_cons_of_neg (by simp [hc]),
            List.filter_filter]
          refine List.filter_congr fun d _ => ?_
          rw [contains_eq_of_clauses hpush]
          by_cases hd : d.keyword = c.keyword
          · simp [hd, hc]
          · simp [hc, hd]
      | false =>
          rw [if_neg Bool.false_ne_true, List.filter_cons_of_pos (by simp [hc]),
            List.filter_filter, List.singleton_append]
          congr 1
          refine List.filter_congr fun d _ => ?_
          rw [contains_eq_of_clauses hpush, hc]
          simp [bne, Bool.beq_comm]

theorem clauses_foldl_push_empty (cs : List Clause) :
    (cs.foldl push empty).clauses = firsts cs := by
  rw [isDistinct_empty.clauses_foldl_push, empty, List.nil_append, List.filter_eq_self]
  exact fun _ _ => rfl

theorem get?_foldl_push_empty (cs : List Clause) (k : TargetKeyword) :
    (cs.foldl push empty).get? k = cs.find? fun c => c.keyword == k := by
  rw [get?, clauses_foldl_push_empty, find?_firsts]

theorem contains_foldl_push_empty (cs : List Clause) (k : TargetKeyword) :
    (cs.foldl push empty).contains k = cs.any fun c => c.keyword == k := by
  rw [contains, clauses_foldl_push_empty, ← List.isSome_find?, find?_firsts, List.isSome_find?]

/--
A rule is read exactly from the texts whose tokens spell clauses, and holds the first of them for
each keyword.  However clauses are pushed, keywords stay distinct, a keyword gets the first clause
that was pushed for it, and a clause is left out only if its keyword was pushed before.
-/
theorem parse_keeps_first_clauses :
    (∀ t r, parse t = .ok r ↔
      ∃ ts cs, TargetToken.tokens t = .ok ts ∧ AreClauses ts cs ∧ r.clauses = firsts cs) ∧
    ∀ cs : List Clause,
      ((cs.foldl push empty).clauses.map Clause.keyword).Nodup ∧
      (∀ k, (cs.foldl push empty).get? k = cs.find? fun c => c.keyword == k) ∧
      ∀ c, ((cs.foldl push empty).push c).clauses =
        (cs.foldl push empty).clauses ++ if cs.any (·.keyword == c.keyword) then [] else [c] := by
  refine ⟨fun t r => ?_, fun cs => ⟨?_, get?_foldl_push_empty cs, fun c => ?_⟩⟩
  · have hrule (cs : List Clause) : cs.foldl push empty = r ↔ r.clauses = firsts cs := by
      rw [← clauses_foldl_push_empty]
      constructor
      · rintro rfl
        rfl
      · intro h
        exact congrArg TargetRule.mk h.symm
    simp only [parse_eq_ok_iff, TargetToken.tokens_eq_ok_iff, hrule]
  · exact (isDistinct_empty.foldl_push cs).keywords
  · rw [(isDistinct_empty.foldl_push cs).clauses_push, contains_foldl_push_empty]

end TargetRule

end DirectoryAccess
