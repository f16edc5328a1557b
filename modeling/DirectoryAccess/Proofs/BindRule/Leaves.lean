import DirectoryAccess.Proofs.BindRule.Grammar

/-!
# The conditions of a token list

Between connectives and parentheses the tokens of a rule fall into runs, and
each run is a condition.  A rule that tokens derive has the conditions of their
runs in order, however they are grouped.
-/

namespace DirectoryAccess

def Condition.bare (c : Condition) : Condition :=
  .make c.keyword c.op c.value

namespace BindRule

/-- The runs of tokens between connectives and parentheses are these conditions. -/
inductive Leaves : List BindToken → List Condition → Prop where
  | nil : Leaves [] []
  | skip {t : BindToken} {ts : List BindToken} {cs : List Condition}
      (ht : endsCondition t = true) (h : Leaves ts cs) : Leaves (t :: ts) cs
  | leaf {us ts : List BindToken} {c : Condition} {cs : List Condition}
      (hus : IsCondition us (condition c)) (hts : EndsCondition ts) (h : Leaves ts cs) :
      Leaves (us ++ ts) (c :: cs)

namespace Leaves

variable {ts us : List BindToken} {cs ds : List Condition}

theorem eq_nil (h : Leaves [] cs) : cs = [] := by
  generalize hlist : [] = list at h
  cases h with
  | nil => rfl
  | skip _ h => cases hlist
  | leaf hus _ _ =>
      have hlength := hus.three_le_length
      rw [(List.append_eq_nil_iff.1 hlist.symm).1] at hlength
      simp at hlength

theorem of_skip {t : BindToken} (h : Leaves (t :: ts) cs) (ht : endsCondition t = true) :
    Leaves ts cs := by
  generalize hlist : t :: ts = list at h
  cases h with
  | nil => cases hlist
  | skip _ h =>
      obtain ⟨rfl, rfl⟩ := List.cons.inj hlist
      exact h
  | @leaf vs ws c cs hvs hws h =>
      have hin := hvs.not_endsCondition
      have hlength := hvs.three_le_length
      cases vs with
      | nil => simp at hlength
      | cons v vs =>
          obtain ⟨rfl, -⟩ := List.cons.inj hlist
          rw [hin t (by simp)] at ht
          cases ht

/-- A run up to the next connective or parenthesis is the first condition. -/
theorem of_append (h : Leaves (us ++ ts) cs) (hne : us ≠ [])
    (hus : ∀ t ∈ us, endsCondition t = false) (hts : EndsCondition ts) :
    ∃ c cs', cs = c :: cs' ∧ IsCondition us (condition c) ∧ Leaves ts cs' := by
  generalize hlist : us ++ ts = list at h
  cases h with
  | nil =>
      have hnil := List.append_eq_nil_iff.1 hlist
      exact absurd hnil.1 hne
  | skip ht h =>
      cases us with
      | nil => exact absurd rfl hne
      | cons u us =>
          obtain ⟨rfl, -⟩ := List.cons.inj hlist
          rw [hus u (by simp)] at ht
          cases ht
  | @leaf vs ws c cs hvs hws h =>
      -- Both are the longest run at the front of the list.
      have hin : ∀ t ∈ us, (!endsCondition t) = true := by simpa using hus
      have hin' : ∀ t ∈ vs, (!endsCondition t) = true := by simpa using hvs.not_endsCondition
      have hout : ∀ t ∈ ts.head?, (!endsCondition t) = false := by simpa [EndsCondition] using hts
      have hout' : ∀ t ∈ ws.head?, (!endsCondition t) = false := by simpa [EndsCondition] using hws
      have hfront : us = vs := by
        rw [← Run.takeWhile_append hin hout, hlist, Run.takeWhile_append hin' hout']
      have hback : ts = ws := by
        rw [← Run.dropWhile_append hin hout, hlist, Run.dropWhile_append hin' hout']
      subst hfront hback
      exact ⟨c, cs, rfl, hvs, h⟩

/-- Tokens that do not start with a connective or parenthesis start with a condition. -/
theorem exists_leaf {t : BindToken} (h : Leaves (t :: ts) cs) (ht : endsCondition t = false) :
    ∃ vs ws c cs', t :: ts = vs ++ ws ∧ cs = c :: cs' ∧ IsCondition vs (condition c) ∧
      Leaves ws cs' := by
  generalize hlist : t :: ts = list at h
  cases h with
  | nil => cases hlist
  | skip ht' h =>
      obtain ⟨rfl, -⟩ := List.cons.inj hlist
      rw [ht] at ht'
      cases ht'
  | @leaf vs ws c cs hvs hws h => exact ⟨vs, ws, c, cs, rfl, rfl, hvs, h⟩

/-- Each of the conditions is the condition of some of the tokens. -/
theorem exists_isCondition (h : Leaves ts cs) :
    ∀ c ∈ cs, ∃ us, us ⊆ ts ∧ IsCondition us (condition c) := by
  induction h with
  | nil => simp
  | @skip t ts cs ht h ih =>
      intro c hc
      obtain ⟨us, hus, hcondition⟩ := ih c hc
      exact ⟨us, List.subset_cons_of_subset t hus, hcondition⟩
  | @leaf us ts c cs hus hts h ih =>
      intro d hd
      rcases List.mem_cons.1 hd with rfl | hd
      · exact ⟨us, List.subset_append_left us ts, hus⟩
      · obtain ⟨vs, hvs, hcondition⟩ := ih d hd
        exact ⟨vs, List.subset_append_of_subset_right us hvs, hcondition⟩

end Leaves

theorem map_bare_conditions_inParens :
    ∀ r : BindRule, r.inParens.conditions.map Condition.bare = r.conditions.map Condition.bare
  | not o => by rw [inParens, conditions, conditions, map_bare_conditions_inParens o]
  | condition c => rfl
  | and os p => by rw [inParens, conditions, conditions]
  | or os p => by rw [inParens, conditions, conditions]

theorem conditionsOfAll_placed (os : List (Connective × BindRule)) :
    conditionsOfAll (os.map placed) = os.flatMap fun o => o.2.conditions := by
  induction os with
  | nil => rfl
  | cons o os ih =>
      obtain ⟨c, r⟩ := o
      rw [List.map_cons, conditionsOfAll, ih, List.flatMap_cons]
      cases c <;> simp [placed, conditions]

theorem conditions_joined {first r : BindRule} {os : List (Connective × BindRule)}
    (h : joined first os = .ok r) :
    r.conditions = first.conditions ++ os.flatMap fun o => o.2.conditions := by
  rw [← conditionsOfAll_placed]
  rcases joined_eq_ok_iff.1 h with ⟨rfl, rfl⟩ | ⟨-, -, rfl⟩ | ⟨-, -, rfl⟩
  · simp [conditionsOfAll]
  · rw [conditions, conditionsOfAll]
  · rw [conditions, conditionsOfAll]

/-- In front of other tokens, the tokens have the conditions of the rule. -/
def HasLeaves (ts : List BindToken) (ds : List Condition) : Prop :=
  ∀ rest cs, EndsCondition rest → Leaves rest cs → Leaves (ts ++ rest) (ds.map Condition.bare ++ cs)

theorem IsCondition.hasLeaves {ts : List BindToken} {r : BindRule} (h : IsCondition ts r) :
    HasLeaves ts r.conditions := by
  intro rest cs hrest hcs
  cases h with
  | intro hname hop hne hvalues hkeyword hvalue =>
      exact .leaf (.intro hname hop hne hvalues hkeyword hvalue) hrest hcs

theorem Others.hasLeaves {Operand : List BindToken → BindRule → Prop}
    (hoperand : ∀ ts r, Operand ts r → HasLeaves ts r.conditions) {ts rest : List BindToken}
    {os : List (Connective × BindRule)} {cs : List Condition} (h : Others Operand ts os)
    (hrest : EndsLevel rest) (hcs : Leaves rest cs) :
    Leaves (ts ++ rest) ((os.flatMap fun o => o.2.conditions).map Condition.bare ++ cs) := by
  induction h with
  | nil => exact hcs
  | @cons t c ts us r os ht hr hos ih =>
      have hall := hoperand ts r hr (us ++ rest) _ (hos.endsCondition hrest) ih
      rw [List.append_assoc, List.cons_append, List.flatMap_cons, List.map_append,
        List.append_assoc]
      exact .skip (endsCondition_of_kindOf ht) hall

theorem Level.hasLeaves {Operand : List BindToken → BindRule → Prop}
    (hoperand : ∀ ts r, Operand ts r → HasLeaves ts r.conditions) {ts rest : List BindToken}
    {r : BindRule} {cs : List Condition} (h : Level Operand ts r) (hrest : EndsLevel rest)
    (hcs : Leaves rest cs) : Leaves (ts ++ rest) (r.conditions.map Condition.bare ++ cs) := by
  obtain ⟨us, vs, first, os, rfl, hfirst, hos, hjoined⟩ := level_iff.1 h
  rw [conditions_joined hjoined, List.map_append, List.append_assoc, List.append_assoc]
  exact hoperand us first hfirst _ _ (hos.endsCondition hrest) (hos.hasLeaves hoperand hrest hcs)

theorem IsOperand.hasLeaves (n : Nat) (ts : List BindToken) (r : BindRule)
    (h : IsOperand n ts r) : HasLeaves ts r.conditions := by
  induction n generalizing ts r with
  | zero => exact IsCondition.hasLeaves h
  | succ n ih =>
      rcases h with h | h
      · exact h.hasLeaves
      · cases h with
        | @intro opening closing us inner hopen hclose hr =>
            intro rest cs hrest hcs
            have hskip : Leaves (closing :: rest) cs :=
              .skip (by simp [endsCondition, hclose]) hcs
            have hend : EndsLevel (closing :: rest) := by simp [EndsLevel, hclose]
            have hlevel := Level.hasLeaves ih hr hend hskip
            rw [map_bare_conditions_inParens, List.append_assoc, List.cons_append,
              List.singleton_append]
            exact .skip (by simp [endsCondition, hopen]) hlevel

/-- The runs of tokens that derive a rule are its conditions. -/
theorem IsRule.leaves {n : Nat} {ts : List BindToken} {r : BindRule} (h : IsRule n ts r) :
    Leaves ts (r.conditions.map Condition.bare) := by
  simpa using Level.hasLeaves (IsOperand.hasLeaves n) h (by simp [EndsLevel]) .nil

end BindRule

end DirectoryAccess
