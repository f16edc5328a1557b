import DirectoryAccess.Proofs.BindRule.Overrun
import DirectoryAccess.Proofs.BindRule.Rendering

/-!
# Written rules keep their conditions

A rule in order that is written and can be read again gives back the same
conditions exactly if every value can stand between quotes and reads back with
the same text.  A value that cannot ends its quotes too early or too late: the
first leaves an open quote in a value that was read, which reading never does;
the second draws the operator of the next condition into a value, and there are
no operators to spare.
-/

namespace DirectoryAccess

/-- The value can stand between quotes, and its text reads as a value with the same text. -/
def Condition.Survives (c : Condition) : Prop :=
  c.value.text.isClosed = true ∧
    ∃ v, Value.parseBind c.keyword c.value.text = .ok v ∧ v.text = c.value.text

namespace Piece

open BindToken BindRule

/-- Pieces whose values are not all closed fall apart at the first such value. -/
theorem exists_first_open {ps : List Piece}
    (h : ¬∀ c, condition c ∈ ps → c.value.text.isClosed = true) :
    ∃ qs c rs, ps = qs ++ condition c :: rs ∧
      (∀ d, condition d ∈ qs → d.value.text.isClosed = true) ∧ c.value.text.isClosed = false := by
  induction ps with
  | nil => exact absurd (by simp) h
  | cons p ps ih =>
      by_cases hp : ∀ c, p = condition c → c.value.text.isClosed = true
      · have hrest : ¬∀ c, condition c ∈ ps → c.value.text.isClosed = true := by
          refine mt (fun hall c hc => ?_) h
          rcases List.mem_cons.1 hc with hc | hc
          · exact hp c hc.symm
          · exact hall c hc
        obtain ⟨qs, c, rs, rfl, hqs, hc⟩ := ih hrest
        refine ⟨p :: qs, c, rs, rfl, fun d hd => ?_, hc⟩
        rcases List.mem_cons.1 hd with hd | hd
        · exact hp d hd.symm
        · exact hqs d hd
      · obtain ⟨c, rfl, hc⟩ : ∃ c, p = condition c ∧ ¬c.value.text.isClosed = true := by
          simpa using hp
        exact ⟨[], c, ps, rfl, by simp, by simpa using hc⟩

/-- The tokens of closed pieces are read as conditions with the values of their texts. -/
theorem forall₂_of_leaves {ps : List Piece} (hchain : ps.IsChain Apart)
    (hclosed : ∀ c, condition c ∈ ps → c.value.text.isClosed = true) {found : List BindToken}
    {cs : List Condition} (hscan : reader.scan (ps.flatMap text) = .ok found)
    (h : Leaves (joinNots found) cs) :
    List.Forall₂ (fun c d => d = .make c.keyword c.op d.value ∧
      Value.parseBind c.keyword c.value.text = .ok d.value) (ps.filterMap condition?) cs := by
  have hexact := scan_pieces hclosed []
  rw [List.append_nil, hscan, TokenReader.scan_nil] at hexact
  simp only [Except.map, Except.ok.injEq] at hexact
  have hnil : joinNots [] = [] := rfl
  rw [hexact, joinNots_scanned ps (by simp), hnil] at h
  obtain ⟨ds, es, rfl, hds, hes⟩ := leaves_of_pieces hchain (.inl (by simp [EndsCondition])) h
  rw [hes.eq_nil, List.append_nil]
  exact hds.imp fun c d hd => isCondition_tokens_iff.1 hd

theorem map_key_eq_iff {cs ds : List Condition} (h : List.Forall₂ (fun c d =>
      d = .make c.keyword c.op d.value ∧ Value.parseBind c.keyword c.value.text = .ok d.value) cs ds)
    (hclosed : ∀ c ∈ cs, c.value.text.isClosed = true) :
    ds.map Condition.key = cs.map Condition.key ↔ ∀ c ∈ cs, c.Survives := by
  induction h with
  | nil => simp
  | @cons c d cs ds hcd hrest ih =>
      obtain ⟨hd, hvalue⟩ := hcd
      have hkey : d.key = c.key ↔ c.Survives := by
        rw [hd, Condition.Survives, hclosed c (by simp), hvalue]
        simp [Condition.key, Condition.make]
      rw [List.map_cons, List.map_cons, List.cons.injEq, hkey,
        ih fun c hc => hclosed c (List.mem_cons_of_mem _ hc), List.forall_mem_cons]

/-- The conditions read from written pieces are those of the pieces exactly if each survives. -/
theorem keys_eq_iff_survive {ps : List Piece} (hchain : ps.IsChain Apart) {found : List BindToken}
    {cs : List Condition} (hscan : reader.scan (ps.flatMap text) = .ok found)
    (h : Leaves (joinNots found) cs) :
    cs.map Condition.key = (ps.filterMap condition?).map Condition.key ↔
      ∀ c ∈ ps.filterMap condition?, c.Survives := by
  by_cases hclosed : ∀ c, condition c ∈ ps → c.value.text.isClosed = true
  · exact map_key_eq_iff (forall₂_of_leaves hchain hclosed hscan h)
      fun c hc => hclosed c (mem_filterMap_condition?.1 hc)
  · refine iff_of_false (fun hkeys => ?_) fun hall => ?_
    · obtain ⟨qs, c, rs, rfl, hqs, hc⟩ := exists_first_open hclosed
      have hbehind : Text.IsGuarded (rs.flatMap text) := by
        simpa using isGuarded_pieces rs Text.isGuarded_nil
      have htext : (qs ++ condition c :: rs).flatMap text =
          qs.flatMap text ++ (c.front ++ '"' :: (c.value.text ++ '"' :: rs.flatMap text)) := by
        rw [List.flatMap_append, List.flatMap_cons, text_condition, c.text_append]
      have hweight := congrArg List.sum (Condition.map_weight_of_map_key hkeys)
      rw [← comparisons_text, htext] at hweight
      rw [htext] at hscan
      have hlt := weight_lt_of_overrun hchain hqs hc hbehind (List.prefix_refl _) hscan h hkeys
      exact absurd hweight (Nat.ne_of_lt hlt)
    · exact hclosed fun c hc => (hall c (mem_filterMap_condition?.2 hc)).1

end Piece

namespace BindRule

/--
A rule in order that reads again reads with the same conditions exactly if the value of each can
stand between quotes and reads with the same text.
-/
theorem keeps_conditions_iff {limit : Nat} {r r' : BindRule} (hcheck : r.check = .ok ())
    (hparse : parseWith limit r.text = .ok r') :
    r'.conditions.map Condition.key = r.conditions.map Condition.key ↔
      ∀ c ∈ r.conditions, c.Survives := by
  obtain ⟨hnot, hfaults⟩ := check_eq_ok_iff.1 hcheck
  obtain ⟨ts, htokens, hrule⟩ := isRule_of_parseWith hparse
  obtain ⟨found, hscan, rfl, -⟩ := BindToken.tokens_eq_ok_iff.1 htokens
  have htext : r.text = (r.pieces false).flatMap Piece.text := by
    rw [text_pieces false r (isPlaced_of_faults r hfaults) hnot]
    rfl
  rw [htext] at hscan
  have hkeys := Piece.keys_eq_iff_survive (isChain_pieces false r) hscan hrule.leaves
  rw [conditions_pieces, List.map_map] at hkeys
  exact hkeys

/-- One condition, whose value closes its own quotes and writes a second condition. -/
def smuggledRule : BindRule :=
  condition (.make .userAttr .eq
    (.binding ⟨none, "owner".toList, .value "x\" OR userdn = \"ldap:///anyone".toList⟩))

/-- The rule as which `smuggledRule` reads. -/
def openedRule : BindRule :=
  or [condition (.make .userAttr .eq (.binding ⟨none, "owner".toList, .value "x".toList⟩)),
    condition (.make .userDn .eq (.names ⟨[.special .anyone]⟩))] false

theorem parseWith_smuggledRule : parseWith 0 smuggledRule.text = .ok openedRule := by
  have htext : smuggledRule.text = openedRule.text := by decide
  have hclosed : ∀ c ∈ openedRule.conditions, c.value.text.isClosed = true := by
    intro c hc
    rw [Text.isClosed_iff]
    revert c
    decide
  have hread : ReadsBack openedRule.conditions := by
    intro c hc
    simp only [openedRule, conditions, conditionsOfAll, List.append_nil, List.cons_append,
      List.nil_append, List.mem_cons, List.not_mem_nil, or_false] at hc
    rcases hc with rfl | rfl <;> rfl
  rw [htext]
  refine parseWith_text rfl hclosed hread ?_
  rw [nesting, tokens_text (by decide) (by decide) hclosed (by decide)]
  decide

/-- A rule that is in order is read with a condition more than it has. -/
theorem smuggledRule_gains_condition :
    smuggledRule.check = .ok () ∧ ∃ r', parseWith 0 smuggledRule.text = .ok r' ∧
      r'.conditions.map Condition.key ≠ smuggledRule.conditions.map Condition.key :=
  ⟨rfl, openedRule, parseWith_smuggledRule, by decide⟩

theorem keeps_conditions_iff_of_smuggledRule :
    openedRule.conditions.map Condition.key = smuggledRule.conditions.map Condition.key ↔
      ∀ c ∈ smuggledRule.conditions, c.Survives :=
  keeps_conditions_iff rfl parseWith_smuggledRule

end BindRule

end DirectoryAccess
