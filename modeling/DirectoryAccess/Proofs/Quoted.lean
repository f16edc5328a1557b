import DirectoryAccess.Proofs.BindRule.Derived
import DirectoryAccess.Proofs.BindRule.Weight
import DirectoryAccess.Proofs.TargetRule.RoundTrip
import DirectoryAccess.Proofs.Value.Ending

/-!
# What rules write between quotes

No value of a rule that was read closes the quotes around it before its end.
One that ends with an odd number of backslashes takes in the quote behind it;
only names and the values bound to attributes can end so, because they are cut
and trimmed without regard to the characters that their backslashes escape.
-/

namespace DirectoryAccess

/--
Read behind an opening quote, the text does not end early, and it takes in the quote behind it
exactly if an odd number of backslashes ends it.
-/
structure Text.EndsAtQuote (v : Text) : Prop where
  closeRun : ∀ rest, closeRun? (v ++ '"' :: rest) =
    if trailingBackslashes v % 2 = 0 then some (v, rest)
    else (closeRun? rest).map fun parts => (v ++ '"' :: parts.1, parts.2)
  isClosed : v.isClosed = true ↔ trailingBackslashes v % 2 = 0

theorem Text.endsAtQuote_of_quotesEscaped {v : Text} (h : quotesEscaped false v = true) :
    v.EndsAtQuote := by
  refine ⟨closeRun?_append_quote h, ?_⟩
  have hodd := trailingBackslashes_odd_iff v
  rw [isClosed_iff, and_iff_right h]
  constructor
  · intro hescape
    rw [hescape] at hodd
    simpa using hodd
  · intro heven
    by_contra hescape
    have htrue := hodd.2 (by simpa using hescape)
    omega

namespace BindRule

/-- Each condition of a rule that was read is the condition of some of the tokens of its text. -/
theorem exists_isCondition_of_parseWith {limit : Nat} {t : Text} {r : BindRule}
    (h : parseWith limit t = .ok r) : ∀ c ∈ r.conditions,
      ∃ us, (∀ u ∈ us, u.IsSpelled) ∧ IsCondition us (condition c.bare) := by
  obtain ⟨ts, htokens, hrule⟩ := isRule_of_parseWith h
  obtain ⟨found, hscan, rfl, -⟩ := BindToken.tokens_eq_ok_iff.1 htokens
  have hspelled := BindToken.isSpelled_joinNots (BindToken.isSpelled_of_scan hscan)
  intro c hc
  obtain ⟨us, hsubset, hus⟩ := hrule.leaves.exists_isCondition c.bare (List.mem_map_of_mem hc)
  exact ⟨us, fun u hu => hspelled u (hsubset hu), hus⟩

theorem IsCondition.escaping_text {ts : List BindToken} {c : Condition}
    (h : IsCondition ts (condition c)) (hends : c.value.endsAsRead = false) :
    Text.escaping false c.value.text = false := by
  cases h with
  | intro hname hop hne hvalues hkeyword hvalue =>
      exact Value.escaping_text_of_parseBind hvalue hends

theorem endsAtQuote_of_parseWith {limit : Nat} {t : Text} {r : BindRule}
    (h : parseWith limit t = .ok r) : ∀ c ∈ r.conditions,
      c.value.text.EndsAtQuote ∧ (c.value.text.isClosed = false → c.value.endsAsRead = true) := by
  intro c hc
  obtain ⟨us, hspelled, hus⟩ := exists_isCondition_of_parseWith h c hc
  have hquotes : Text.quotesEscaped false c.value.text = true := hus.quotesEscaped hspelled
  refine ⟨Text.endsAtQuote_of_quotesEscaped hquotes, fun hopen => ?_⟩
  by_contra hends
  have hfalse : c.value.endsAsRead = false := by simpa using hends
  have hescape : Text.escaping false c.value.text = false := hus.escaping_text hfalse
  rw [Text.isClosed_iff.2 ⟨hquotes, hescape⟩] at hopen
  cases hopen

end BindRule

/-- What a clause writes between quotes escapes nothing behind it, unless it is a name. -/
theorem Clause.escaping_quotedTexts {c : Clause} {raws : List Text}
    (h : Value.parseTarget c.keyword raws = .ok c.value) {v : Text} (hv : v ∈ c.quotedTexts)
    (hescape : Text.escaping false v = true) :
    ∃ l d, c.value = .names l ∧ .dn d ∈ l.items ∧ v = (NameEntry.dn d).text := by
  -- A text that escapes nothing behind it is not `v`, which leaves the names.
  have hnot {u : Text} (hu : Text.escaping false u = false) : u ≠ v := by
    rintro rfl
    rw [hu] at hescape
    cases hescape
  obtain ⟨k, op, value⟩ := c
  obtain ⟨-, h⟩ := Value.parseTarget_eq_ok_iff.1 h
  cases k
  case target | targetTo | targetFrom =>
    obtain ⟨l, hl, rfl⟩ := h
    obtain ⟨e, he, rfl⟩ : ∃ e ∈ l.items, e.text = v := by
      simpa [quotedTexts, TargetKeyword.quotesEach, TargetKeyword.isName, Value.texts] using hv
    obtain ⟨entry, -, hread⟩ := NameList.exists_of_mem_items hl he
    rcases NameEntry.read_eq_ok_iff.1 hread with ⟨s, -, rfl⟩ | ⟨-, -, hurls, -⟩ | ⟨-, -, d, -, rfl⟩
    · exact absurd rfl (hnot (NameEntry.escaping_text_of_read hread rfl))
    · cases hurls
    · exact ⟨_, d, rfl, he, rfl⟩
  case targetControl | extOp =>
    obtain ⟨l, hl, rfl⟩ := h
    obtain ⟨o, ho, rfl⟩ : ∃ o ∈ l.items, o.text = v := by
      simpa [quotedTexts, TargetKeyword.quotesEach, Value.texts] using hv
    exact absurd rfl (hnot (ObjectIdList.escaping_text_of_read hl o ho))
  case targetAttr =>
    obtain ⟨l, hl, rfl⟩ := h
    obtain rfl := List.mem_singleton.1 hv
    exact absurd rfl (hnot (AttributeList.escaping_text_of_read hl))
  case targetScope =>
    obtain ⟨raw, s, -, -, rfl⟩ := h
    obtain rfl := List.mem_singleton.1 hv
    have hname : Text.escaping false s.name = false := by cases s <;> decide
    exact absurd rfl (hnot hname)
  case targetFilter =>
    obtain ⟨raw, f, -, hf, rfl⟩ := h
    obtain rfl := List.mem_singleton.1 hv
    exact absurd rfl (hnot (SearchFilter.escaping_text_of_read hf))
  case targetAttrFilters =>
    obtain ⟨raw, changes, -, hchanges, rfl⟩ := h
    obtain rfl := List.mem_singleton.1 hv
    exact absurd rfl (hnot (FilterChanges.escaping_text_of_read hchanges))

theorem TargetRule.endsAtQuote_of_parse {t : Text} {r : TargetRule} (h : parse t = .ok r) :
    ∀ c ∈ r.clauses, ∀ v ∈ c.quotedTexts, v.EndsAtQuote ∧ (v.isClosed = false →
      ∃ l d, c.value = .names l ∧ .dn d ∈ l.items ∧ v = (NameEntry.dn d).text) := by
  intro c hc v hv
  have hread := isRead_of_parse h c hc
  have hquotes : Text.quotesEscaped false v = true := hread.quotesEscaped v hv
  obtain ⟨raws, hvalue, -⟩ := hread.value
  refine ⟨Text.endsAtQuote_of_quotesEscaped hquotes, fun hopen => ?_⟩
  exact Clause.escaping_quotedTexts hvalue hv (Text.escaping_of_not_isClosed hquotes hopen)

/--
What a rule that was read writes between quotes never ends early, and takes in the quote behind it
exactly if an odd number of backslashes ends it; then it is a name or a value bound to an attribute.
-/
theorem quoted_texts_end_at_quotes (limit : Nat) (t : Text) :
    (∀ r, BindRule.parseWith limit t = .ok r → ∀ c ∈ r.conditions,
      c.value.text.EndsAtQuote ∧ (c.value.text.isClosed = false → c.value.endsAsRead = true)) ∧
    ∀ r, TargetRule.parse t = .ok r → ∀ c ∈ r.clauses, ∀ v ∈ c.quotedTexts,
      v.EndsAtQuote ∧ (v.isClosed = false →
        ∃ l d, c.value = .names l ∧ .dn d ∈ l.items ∧ v = (NameEntry.dn d).text) :=
  ⟨fun _ h => BindRule.endsAtQuote_of_parseWith h, fun _ h => TargetRule.endsAtQuote_of_parse h⟩

/-- A name that ended in an escaped blank when it was read. -/
def escapedEnd : Value :=
  .names ⟨[.dn ⟨"dc=a\\".toList⟩]⟩

theorem isClosed_before_trim : Text.isClosed "ldap:///dc=a\\ ".toList = true :=
  Text.isClosed_iff.2 ⟨by decide, by decide⟩

theorem parseWith_escapedEnd (limit : Nat) :
    BindRule.parseWith limit "userdn = \"ldap:///dc=a\\ \"".toList =
      .ok (.condition (.make .userDn .eq escapedEnd)) :=
  BindRule.parseWith_front_quote (c := .make .userDn .eq escapedEnd) isClosed_before_trim rfl

theorem parse_escapedEnd :
    TargetRule.parse "(target = \"ldap:///dc=a\\ \")".toList =
      .ok ⟨[⟨.target, .eq, escapedEnd⟩]⟩ := by
  have hpieces : ∀ p ∈ [TargetPiece.opening .target .eq, .value "ldap:///dc=a\\ ".toList, .closing],
      p.IsScanned := by
    intro p hp
    simp only [List.mem_cons, List.not_mem_nil, or_false] at hp
    rcases hp with rfl | rfl | rfl
    · rfl
    · exact isClosed_before_trim
    · trivial
  have hscan := TargetPiece.scan_pieces hpieces []
  rw [TokenReader.scan_nil] at hscan
  have hclause : TargetRule.IsClause _ ⟨.target, .eq, escapedEnd⟩ :=
    .intro (TargetPiece.parse_name .target) (List.cons_ne_nil "ldap:///dc=a\\ ".toList []) rfl
  exact TargetRule.parse_eq_ok_iff.2 ⟨_, _, hscan, .cons hclause .nil, rfl⟩

/-- A rule was read whose written value does not close: the quote behind it is escaped. -/
theorem escapedEnd_is_not_closed :
    BindRule.parse "userdn = \"ldap:///dc=a\\ \"".toList =
        .ok (.condition (.make .userDn .eq escapedEnd)) ∧
      (BindRule.condition (.make .userDn .eq escapedEnd)).text =
        "userdn = \"ldap:///dc=a\\\"".toList ∧
      escapedEnd.text.isClosed = false ∧ Text.closeRun? (escapedEnd.text ++ ['"']) = none := by
  have hclose : Text.closeRun? (escapedEnd.text ++ ['"']) = none := by
    rw [Text.closeRun?_eq_cutQuote?]
    rfl
  refine ⟨parseWith_escapedEnd _, rfl, ?_, hclose⟩
  rw [Text.isClosed, hclose]
  rfl

theorem quoted_texts_end_at_quotes_of_escapedEnd :
    (escapedEnd.text.EndsAtQuote ∧
        (escapedEnd.text.isClosed = false → escapedEnd.endsAsRead = true)) ∧
      ∀ v ∈ [escapedEnd.text], v.EndsAtQuote ∧ (v.isClosed = false →
        ∃ l d, escapedEnd = .names l ∧ .dn d ∈ l.items ∧ v = (NameEntry.dn d).text) :=
  ⟨(quoted_texts_end_at_quotes 0 _).1 _ (parseWith_escapedEnd 0) _ (List.mem_singleton_self _),
    (quoted_texts_end_at_quotes 0 _).2 _ parse_escapedEnd ⟨.target, .eq, escapedEnd⟩
      (List.mem_singleton_self _)⟩

end DirectoryAccess
