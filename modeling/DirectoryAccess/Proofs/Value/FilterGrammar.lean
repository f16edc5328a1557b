import DirectoryAccess.Proofs.Run
import DirectoryAccess.Proofs.Value.Names

/-!
# The grammar of search filters

The grammar is stated on texts and apart from the reader: what stands between
the parentheses of a filter is a conjunction, a disjunction, a negation or an
assertion.  The reader takes the first way that fits and never goes back on a
choice, and yet accepts exactly the texts that the grammar derives: the first
character of what stands between parentheses decides what it can be, and nothing
that an assertion takes in too much is missed behind it.
-/

namespace DirectoryAccess

namespace SearchFilter

/-! ## Grammar -/

/-- The white space that may stand between the parts of a filter. -/
def IsGap (t : Text) : Prop :=
  ∀ c ∈ t, Text.isSeparator c = true

/-- The attribute of an assertion: letters, digits and some marks, of ASCII. -/
def IsAttribute (t : Text) : Prop :=
  t ≠ [] ∧ ∀ c ∈ t, c.isAlphanum = true ∨ c ∈ [';', '.', '-', ':', '_']

def comparisons : List Text :=
  ["~=".toList, ">=".toList, "<=".toList, "=".toList]

/-- The value of an assertion: parentheses and backslashes stand in it behind a backslash only. -/
inductive IsAssertionValue : Text → Prop where
  | nil : IsAssertionValue []
  | plain {c : Char} {t : Text} (hc : c ≠ '(' ∧ c ≠ ')' ∧ c ≠ '\\') (ht : IsAssertionValue t) :
      IsAssertionValue (c :: t)
  | escaped (c : Char) {t : Text} (ht : IsAssertionValue t) : IsAssertionValue ('\\' :: c :: t)

/-- What the grammar has names for: filters, what they enclose, and the operands in there. -/
inductive Phrase where
  | filter
  | content
  | operands

/-- The grammar derives the text as a phrase. -/
inductive Derives : Phrase → Text → Prop where
  | filter {before content after : Text} (hbefore : IsGap before)
      (hcontent : Derives .content content) (hafter : IsGap after) :
      Derives .filter ('(' :: (before ++ (content ++ (after ++ [')']))))
  | group {mark : Char} {operands : Text} (hmark : mark = '&' ∨ mark = '|')
      (h : Derives .operands operands) : Derives .content (mark :: operands)
  | negation {gap operand : Text} (hgap : IsGap gap) (h : Derives .filter operand) :
      Derives .content ('!' :: (gap ++ operand))
  | assertion {attr comparison value : Text} (hattribute : IsAttribute attr)
      (hcomparison : comparison ∈ comparisons) (hvalue : IsAssertionValue value) :
      Derives .content (attr ++ (comparison ++ value))
  | last {gap operand : Text} (hgap : IsGap gap) (h : Derives .filter operand) :
      Derives .operands (gap ++ operand)
  | more {gap operand others : Text} (hgap : IsGap gap) (h : Derives .filter operand)
      (hothers : Derives .operands others) : Derives .operands (gap ++ (operand ++ others))

/-! ## What is read is derived -/

theorem isAttributeChar_iff {c : Char} :
    isAttributeChar c = true ↔ c.isAlphanum = true ∨ c ∈ [';', '.', '-', ':', '_'] := by
  simp [isAttributeChar, or_assoc]

theorem isAttribute_of_all {t : Text} (hne : t ≠ []) (h : t.all isAttributeChar = true) :
    IsAttribute t :=
  ⟨hne, fun c hc => isAttributeChar_iff.1 (List.all_eq_true.1 h c hc)⟩

theorem afterComparison?_eq_some_iff {t rest : Text} :
    afterComparison? t = some rest ↔ ∃ comparison ∈ comparisons, t = comparison ++ rest := by
  have hlist : (∃ comparison ∈ comparisons, t = comparison ++ rest) ↔
      t = '~' :: '=' :: rest ∨ t = '>' :: '=' :: rest ∨ t = '<' :: '=' :: rest ∨
        t = '=' :: rest := by
    simp [comparisons]
  rw [hlist]
  unfold afterComparison?
  split <;> simp_all [eq_comm]

theorem exists_afterAssertion (t : Text) :
    ∃ value, t = value ++ afterAssertion t ∧ IsAssertionValue value := by
  fun_induction afterAssertion t with
  | case1 => exact ⟨[], rfl, .nil⟩
  | case2 c cs ih =>
      obtain ⟨value, hvalue, hall⟩ := ih
      exact ⟨'\\' :: c :: value, by rw [List.cons_append, List.cons_append, ← hvalue],
        .escaped c hall⟩
  | case3 c cs => exact ⟨[], rfl, .nil⟩
  | case4 c cs _ hc ih =>
      obtain ⟨value, hvalue, hall⟩ := ih
      exact ⟨c :: value, by rw [List.cons_append, ← hvalue],
        .plain (by simpa [and_assoc] using hc) hall⟩

theorem derives_of_assertion {t rest : Text} (h : assertion t = .ok rest) :
    ∃ s, t = s ++ rest ∧ Derives .content s := by
  simp only [assertion] at h
  split at h
  · cases h
  · rename_i hlength
    split at h
    · cases h
    · rename_i behind hbehind
      cases h
      obtain ⟨comparison, hcomparison, hdrop⟩ := afterComparison?_eq_some_iff.1 hbehind
      obtain ⟨value, hvalue, hall⟩ := exists_afterAssertion behind
      have hsplit : t = t.takeWhile isAttributeChar ++ (comparison ++ value) ++
          afterAssertion behind := by
        rw [List.append_assoc, List.append_assoc, ← hvalue, ← hdrop,
          List.takeWhile_append_dropWhile]
      have hattribute : IsAttribute (t.takeWhile isAttributeChar) := by
        refine isAttribute_of_all (fun hnil => hlength ?_) List.all_takeWhile
        have happend := List.takeWhile_append_dropWhile (p := isAttributeChar) (l := t)
        rw [hnil, List.nil_append] at happend
        rw [happend]
      exact ⟨_, by simpa using hsplit, .assertion hattribute hcomparison hall⟩

/-- By steps, what each of the readers takes off the front is a phrase. -/
structure ReadersDerive (fuel : Nat) : Prop where
  filter : ∀ t rest, filterWith fuel t = .ok rest → ∃ s, t = s ++ rest ∧ Derives .filter s
  content : ∀ t rest, contentWith fuel t = .ok rest → ∃ s, t = s ++ rest ∧ Derives .content s
  filters : ∀ t, ∃ s, t = s ++ filtersWith fuel t ∧ (s ≠ [] → Derives .operands s)

namespace ReadersDerive

variable {fuel : Nat} {t rest : Text}

/-- An operand is a filter behind white space. -/
theorem exists_operand (h : ReadersDerive fuel)
    (hread : filterWith fuel (Text.skipSeparators t) = .ok rest) :
    ∃ gap operand, t = gap ++ (operand ++ rest) ∧ IsGap gap ∧ Derives .filter operand := by
  obtain ⟨gap, hgap, hall⟩ := Text.exists_separators_append t
  obtain ⟨operand, hoperand, hderives⟩ := h.filter _ rest hread
  exact ⟨gap, operand, by rw [← hoperand, ← hgap], hall, hderives⟩

/-- A first operand and those behind it are operands. -/
theorem exists_operands (h : ReadersDerive fuel)
    (hread : filterWith fuel (Text.skipSeparators t) = .ok rest) :
    ∃ s, t = s ++ filtersWith fuel rest ∧ Derives .operands s := by
  obtain ⟨gap, operand, rfl, hgap, hderives⟩ := h.exists_operand hread
  obtain ⟨others, hothers, hrest⟩ := h.filters rest
  cases others with
  | nil =>
      rw [List.nil_append] at hothers
      exact ⟨gap ++ operand, by rw [← hothers, List.append_assoc], .last hgap hderives⟩
  | cons c cs =>
      exact ⟨gap ++ (operand ++ c :: cs), by simp [← hothers],
        .more hgap hderives (hrest (List.cons_ne_nil c cs))⟩

theorem exists_filter (h : ReadersDerive fuel) (hread : filterWith (fuel + 1) t = .ok rest) :
    ∃ s, t = s ++ rest ∧ Derives .filter s := by
  unfold filterWith at hread
  split at hread
  · rename_i inside
    split at hread
    · cases hread
    · rename_i inner hinner
      split at hread
      · rename_i behind hclose
        cases hread
        obtain ⟨before, hbefore, hbeforeall⟩ := Text.exists_separators_append inside
        obtain ⟨content, hsplit, hderives⟩ := h.content _ inner hinner
        obtain ⟨after, hafter, hafterall⟩ := Text.exists_separators_append inner
        rw [hclose] at hafter
        refine ⟨_, ?_, .filter hbeforeall hderives hafterall⟩
        rw [hbefore, hsplit, hafter]
        simp
      · cases hread
  · cases hread

theorem exists_content (h : ReadersDerive fuel) (hread : contentWith (fuel + 1) t = .ok rest) :
    ∃ s, t = s ++ rest ∧ Derives .content s := by
  unfold contentWith at hread
  split at hread
  · split at hread
    · rename_i behind hfirst
      cases hread
      obtain ⟨s, hs, hderives⟩ := h.exists_operands hfirst
      exact ⟨'&' :: s, by rw [List.cons_append, ← hs], .group (Or.inl rfl) hderives⟩
    · exact derives_of_assertion hread
  · split at hread
    · rename_i behind hfirst
      cases hread
      obtain ⟨s, hs, hderives⟩ := h.exists_operands hfirst
      exact ⟨'|' :: s, by rw [List.cons_append, ← hs], .group (Or.inr rfl) hderives⟩
    · exact derives_of_assertion hread
  · split at hread
    · rename_i behind hfirst
      cases hread
      obtain ⟨gap, operand, hs, hgap, hderives⟩ := h.exists_operand hfirst
      exact ⟨'!' :: (gap ++ operand), by rw [hs]; simp, .negation hgap hderives⟩
    · exact derives_of_assertion hread
  · exact derives_of_assertion hread

theorem exists_filters (h : ReadersDerive fuel) (t : Text) :
    ∃ s, t = s ++ filtersWith (fuel + 1) t ∧ (s ≠ [] → Derives .operands s) := by
  rw [filtersWith]
  split
  · rename_i behind hfirst
    obtain ⟨s, hs, hderives⟩ := h.exists_operands hfirst
    exact ⟨s, hs, fun _ => hderives⟩
  · exact ⟨[], rfl, fun h => absurd rfl h⟩

end ReadersDerive

theorem readers_derive (fuel : Nat) : ReadersDerive fuel := by
  induction fuel with
  | zero =>
      refine ⟨fun t rest h => ?_, fun t rest h => ?_, fun t => ⟨[], ?_, fun h => absurd rfl h⟩⟩
      · rw [filterWith] at h
        cases h
      · rw [contentWith] at h
        cases h
      · rw [filtersWith, List.nil_append]
  | succ fuel ih =>
      exact {
        filter := fun _ _ => ih.exists_filter
        content := fun _ _ => ih.exists_content
        filters := ih.exists_filters }

/-! ## What is derived is read -/

theorem skipSeparators_gap {gap rest : Text} (hgap : IsGap gap)
    (hrest : ∀ c ∈ rest.head?, Text.isSeparator c = false) :
    Text.skipSeparators (gap ++ rest) = rest :=
  Run.dropWhile_append hgap hrest

theorem skipSeparators_gap_close {gap : Text} (hgap : IsGap gap) (rest : Text) :
    Text.skipSeparators (gap ++ ')' :: rest) = ')' :: rest :=
  skipSeparators_gap hgap (by simp [Text.isSeparator])

theorem isSeparator_of_isAttributeChar {c : Char} (h : isAttributeChar c = true) :
    Text.isSeparator c = false := by
  by_contra hsep
  simp only [Text.isSeparator, Bool.not_eq_false, Bool.or_eq_true, beq_iff_eq] at hsep
  rcases hsep with ((rfl | rfl) | rfl) | rfl <;> cases h

/-- Neither a filter nor what it encloses starts with white space. -/
theorem Derives.exists_head {p : Phrase} {t : Text} (h : Derives p t) (hp : p ≠ .operands) :
    ∃ c cs, t = c :: cs ∧ Text.isSeparator c = false := by
  cases h with
  | filter | negation => exact ⟨_, _, rfl, rfl⟩
  | group hmark =>
      refine ⟨_, _, rfl, ?_⟩
      rcases hmark with rfl | rfl <;> rfl
  | assertion hattr =>
      obtain ⟨c, cs, rfl⟩ := List.exists_cons_of_ne_nil hattr.1
      exact ⟨c, _, rfl,
        isSeparator_of_isAttributeChar (isAttributeChar_iff.2 (hattr.2 c (by simp)))⟩
  | last | more => exact absurd rfl hp

theorem Derives.skipSeparators_append {p : Phrase} {gap t : Text} (h : Derives p t)
    (hp : p ≠ .operands) (hgap : IsGap gap) (rest : Text) :
    Text.skipSeparators (gap ++ (t ++ rest)) = t ++ rest := by
  obtain ⟨c, cs, rfl, hc⟩ := h.exists_head hp
  exact skipSeparators_gap hgap (by simpa using hc)

theorem IsGap.isAssertionValue {gap : Text} (h : IsGap gap) : IsAssertionValue gap := by
  induction gap with
  | nil => exact .nil
  | cons c gap ih =>
      have hc := h c (by simp)
      refine .plain ⟨?_, ?_, ?_⟩ (ih fun d hd => h d (List.mem_cons_of_mem c hd))
      all_goals
        rintro rfl
        cases hc

theorem afterAssertion_append {value : Text} (h : IsAssertionValue value) (rest : Text) :
    afterAssertion (value ++ rest) = afterAssertion rest := by
  induction h with
  | nil => rfl
  | @plain c t hc _ ih =>
      rw [List.cons_append, afterAssertion, if_neg (by simpa [and_assoc] using hc), ih]
      exact fun _ _ heq => absurd heq hc.2.2
  | escaped c _ ih => rw [List.cons_append, List.cons_append, afterAssertion, ih]

theorem assertion_append {attr comparison value : Text} (hattribute : IsAttribute attr)
    (hcomparison : comparison ∈ comparisons) (hvalue : IsAssertionValue value) (rest : Text) :
    assertion (attr ++ (comparison ++ value) ++ rest) = .ok (afterAssertion rest) := by
  have hhead : ∀ c ∈ (comparison ++ (value ++ rest)).head?, isAttributeChar c = false := by
    simp only [comparisons, List.mem_cons, List.not_mem_nil, or_false] at hcomparison
    rcases hcomparison with rfl | rfl | rfl | rfl <;> simp <;> decide
  have hdrop : (attr ++ (comparison ++ value) ++ rest).dropWhile isAttributeChar =
      comparison ++ (value ++ rest) := by
    rw [List.append_assoc, List.append_assoc]
    exact Run.dropWhile_append (fun c hc => isAttributeChar_iff.2 (hattribute.2 c hc)) hhead
  have hbehind : afterComparison? (comparison ++ (value ++ rest)) = some (value ++ rest) :=
    afterComparison?_eq_some_iff.2 ⟨comparison, hcomparison, rfl⟩
  have hlength : ¬(comparison ++ (value ++ rest)).length =
      (attr ++ (comparison ++ value) ++ rest).length := by
    have hpos := List.length_pos_iff.2 hattribute.1
    simp only [List.length_append]
    omega
  rw [assertion]
  simp only [hdrop, hlength, if_false, hbehind, afterAssertion_append hvalue]

theorem contentWith_of_isAttributeChar {c : Char} (hc : isAttributeChar c = true) (fuel : Nat)
    (t : Text) : contentWith (fuel + 1) (c :: t) = assertion (c :: t) := by
  unfold contentWith
  split
  case h_4 => rfl
  all_goals
    rename_i heq
    obtain ⟨rfl, -⟩ := List.cons.inj heq
    cases hc

/-- Where no operand follows, the reader of operands stops. -/
theorem filtersWith_close {gap : Text} (hgap : IsGap gap) (fuel : Nat) (rest : Text) :
    filtersWith fuel (gap ++ ')' :: rest) = gap ++ ')' :: rest := by
  cases fuel with
  | zero => rfl
  | succ fuel =>
      have hnone : ∃ stop, filterWith fuel (')' :: rest) = .error stop := by
        cases fuel <;> exact ⟨_, rfl⟩
      obtain ⟨stop, hstop⟩ := hnone
      rw [filtersWith, skipSeparators_gap_close hgap, hstop]

/--
The reader of a phrase reads the text, with as many steps as it is long, whatever follows a filter
and in front of the parenthesis that closes what a filter encloses.
-/
def IsRead : Phrase → Text → Prop
  | .filter, t => ∀ fuel rest, t.length ≤ fuel → filterWith fuel (t ++ rest) = .ok rest
  | .content, t => ∀ fuel gap rest, t.length ≤ fuel → IsGap gap →
      ∃ left, contentWith fuel (t ++ (gap ++ ')' :: rest)) = .ok left ∧
        Text.skipSeparators left = ')' :: rest
  | .operands, t => ∀ fuel gap rest, t.length ≤ fuel → IsGap gap →
      ∃ left, filterWith fuel (Text.skipSeparators (t ++ (gap ++ ')' :: rest))) = .ok left ∧
        filtersWith fuel left = gap ++ ')' :: rest

theorem Derives.length_pos {p : Phrase} {t : Text} (h : Derives p t) : 0 < t.length := by
  induction h with
  | filter | group | negation => simp
  | assertion hattr =>
      have hpos := List.length_pos_iff.2 hattr.1
      simp only [List.length_append]
      omega
  | last hgap h ih | more hgap h hothers ih =>
      simp only [List.length_append]
      omega

/-- A text that is not empty leaves the reader a step to take. -/
theorem exists_fuel_succ {fuel : Nat} {t : Text} (hpos : 0 < t.length) (hfuel : t.length ≤ fuel) :
    ∃ n, fuel = n + 1 :=
  Nat.exists_eq_add_one.2 (Nat.lt_of_lt_of_le hpos hfuel)

namespace IsRead

theorem filter {before content after : Text} (hcontent : Derives .content content)
    (ih : IsRead .content content) (hbefore : IsGap before) (hafter : IsGap after) :
    IsRead .filter ('(' :: (before ++ (content ++ (after ++ [')'])))) := by
  intro fuel rest hfuel
  obtain ⟨fuel, rfl⟩ := exists_fuel_succ (by simp) hfuel
  simp only [List.length_cons, List.length_append] at hfuel
  obtain ⟨left, hleft, hclose⟩ := ih fuel after rest (by omega) hafter
  have htext : '(' :: (before ++ (content ++ (after ++ [')']))) ++ rest =
      '(' :: (before ++ (content ++ (after ++ ')' :: rest))) := by simp
  rw [htext, filterWith]
  simp only [hcontent.skipSeparators_append Phrase.noConfusion hbefore, hleft, hclose]

theorem group {mark : Char} {operands : Text} (hmark : mark = '&' ∨ mark = '|')
    (ih : IsRead .operands operands) : IsRead .content (mark :: operands) := by
  intro fuel gap rest hfuel hgap
  obtain ⟨fuel, rfl⟩ := exists_fuel_succ (by simp) hfuel
  obtain ⟨left, hleft, hclose⟩ := ih fuel gap rest (by simpa using hfuel) hgap
  refine ⟨gap ++ ')' :: rest, ?_, skipSeparators_gap_close hgap rest⟩
  rcases hmark with rfl | rfl <;> simp only [List.cons_append, contentWith, hleft, hclose]

theorem negation {between operand : Text} (hoperand : Derives .filter operand)
    (ih : IsRead .filter operand) (hbetween : IsGap between) :
    IsRead .content ('!' :: (between ++ operand)) := by
  intro fuel gap rest hfuel hgap
  obtain ⟨fuel, rfl⟩ := exists_fuel_succ (by simp) hfuel
  simp only [List.length_cons, List.length_append] at hfuel
  have hread := ih fuel (gap ++ ')' :: rest) (by omega)
  refine ⟨gap ++ ')' :: rest, ?_, skipSeparators_gap_close hgap rest⟩
  rw [List.cons_append, List.append_assoc, contentWith]
  simp only [hoperand.skipSeparators_append Phrase.noConfusion hbetween, hread]

/-- The value of an assertion takes in the white space in front of the parenthesis. -/
theorem assertion {attr comparison value : Text} (hattr : IsAttribute attr)
    (hcomparison : comparison ∈ comparisons) (hvalue : IsAssertionValue value) :
    IsRead .content (attr ++ (comparison ++ value)) := by
  intro fuel gap rest hfuel hgap
  obtain ⟨fuel, rfl⟩ :=
    exists_fuel_succ (Derives.assertion hattr hcomparison hvalue).length_pos hfuel
  have hread := assertion_append hattr hcomparison hvalue (gap ++ ')' :: rest)
  rw [afterAssertion_append hgap.isAssertionValue] at hread
  obtain ⟨c, cs, rfl⟩ := List.exists_cons_of_ne_nil hattr.1
  refine ⟨')' :: rest, ?_, rfl⟩
  rw [List.cons_append, List.cons_append,
    contentWith_of_isAttributeChar (isAttributeChar_iff.2 (hattr.2 c (by simp)))]
  exact hread

theorem last {between operand : Text} (hoperand : Derives .filter operand)
    (ih : IsRead .filter operand) (hbetween : IsGap between) :
    IsRead .operands (between ++ operand) := by
  intro fuel gap rest hfuel hgap
  simp only [List.length_append] at hfuel
  refine ⟨gap ++ ')' :: rest, ?_, filtersWith_close hgap fuel rest⟩
  rw [List.append_assoc, hoperand.skipSeparators_append Phrase.noConfusion hbetween]
  exact ih fuel _ (by omega)

theorem more {between operand others : Text} (hoperand : Derives .filter operand)
    (ih : IsRead .filter operand) (ihothers : IsRead .operands others)
    (hbetween : IsGap between) : IsRead .operands (between ++ (operand ++ others)) := by
  intro fuel gap rest hfuel hgap
  simp only [List.length_append] at hfuel
  have hpos := hoperand.length_pos
  have hfits : operand.length ≤ fuel := by omega
  obtain ⟨fuel, rfl⟩ := exists_fuel_succ hpos hfits
  obtain ⟨left, hleft, hclose⟩ := ihothers fuel gap rest (by omega) hgap
  refine ⟨others ++ (gap ++ ')' :: rest), ?_, ?_⟩
  · rw [List.append_assoc, List.append_assoc,
      hoperand.skipSeparators_append Phrase.noConfusion hbetween]
    exact ih (fuel + 1) _ hfits
  · rw [filtersWith]
    simp only [hleft, hclose]

end IsRead

theorem Derives.isRead {p : Phrase} {t : Text} (h : Derives p t) : IsRead p t := by
  induction h with
  | filter hbefore hcontent hafter ih => exact .filter hcontent ih hbefore hafter
  | group hmark h ih => exact .group hmark ih
  | negation hgap h ih => exact .negation h ih hgap
  | assertion hattr hcomparison hvalue => exact .assertion hattr hcomparison hvalue
  | last hgap h ih => exact .last h ih hgap
  | more hgap h hothers ih ihothers => exact .more h ih ihothers hgap

/-! ## Filters -/

/-- A trimmed text that starts with a parenthesis passes the check exactly if it is a filter. -/
theorem check_eq_ok_iff_derives {t s : Text} (ht : t.IsTrimmed) (hs : t = '(' :: s) :
    check t = .ok () ↔ Derives .filter t := by
  have hstart : Text.skipSeparators t = t := by
    rw [hs]
    rfl
  constructor
  · intro h
    unfold check at h
    rw [hstart] at h
    split at h
    · cases h
    · rename_i rest hread
      split at h
      · rename_i hend
        obtain ⟨f, hf, hderives⟩ := (readers_derive _).filter t rest hread
        obtain ⟨gap, hgap, hall⟩ := Text.exists_separators_append rest
        rw [hend, List.append_nil] at hgap
        rw [← hgap] at hall
        -- White space behind the filter would stand at the end of the trimmed text.
        have hnone : rest = [] := by
          by_contra hne
          have hlast := ht.2 (rest.getLast hne)
            (by rw [hf, List.getLast?_append, List.getLast?_eq_some_getLast hne]; rfl)
          have hsep := hall _ (List.getLast_mem hne)
          rw [Text.isSeparator_of_isBlank_eq_false hlast] at hsep
          cases hsep
        rwa [hf, hnone, List.append_nil]
      · cases h
  · intro h
    have hread := h.isRead (steps t) [] (by rw [steps]; omega)
    rw [List.append_nil] at hread
    rw [check, hstart, hread]
    rfl

theorem check_parenthesized_iff {t : Text} (ht : t.IsTrimmed) :
    check (parenthesized t) = .ok () ↔ Derives .filter (parenthesized t) := by
  obtain ⟨rest, hrest⟩ := exists_parenthesized t
  exact check_eq_ok_iff_derives (isTrimmed_parenthesized ht) hrest

theorem derives_of_read {t : Text} {f : SearchFilter} (h : read t = .ok f) :
    Derives .filter f.text := by
  obtain ⟨-, hcheck, rfl⟩ := read_eq_ok_iff.1 h
  exact (check_parenthesized_iff (Text.isTrimmed_trim t)).1 hcheck

theorem Derives.exists_front {t : Text} (h : Derives .filter t) : ∃ front, t = front ++ [')'] := by
  cases h with
  | @filter before content after =>
      exact ⟨'(' :: (before ++ (content ++ after)), by simp⟩

/-- Something stands between the parentheses of a filter. -/
theorem Derives.two_lt_length {t : Text} (h : Derives .filter t) : 2 < t.length := by
  cases h with
  | filter hbefore hcontent hafter =>
      have hpos := hcontent.length_pos
      simp only [List.length_cons, List.length_append, List.length_nil]
      omega

/--
Reading a filter accepts exactly the texts that the grammar derives when they are trimmed and, if
they start with no parenthesis, put between parentheses; it keeps that text, from which the same
filter is read again.
-/
theorem parse_accepts_grammar {t : Text} {f : SearchFilter} :
    (parse t = .ok f ↔
      Derives .filter (parenthesized (Text.trim t)) ∧ f.text = parenthesized (Text.trim t)) ∧
    (parse t = .ok f → parse f.text = .ok f) := by
  have hparse {t : Text} : parse t = .ok f ↔ read t = .ok f := Outcome.mapError_eq_ok
  refine ⟨?_, fun h => hparse.2 (read_text (hparse.1 h))⟩
  rw [hparse, read_eq_ok_iff, check_parenthesized_iff (Text.isTrimmed_trim t)]
  constructor
  · rintro ⟨-, hderives, rfl⟩
    exact ⟨hderives, rfl⟩
  · rintro ⟨hderives, htext⟩
    refine ⟨fun hnil => ?_, hderives, congrArg SearchFilter.mk htext.symm⟩
    rw [hnil] at hderives
    exact absurd hderives.two_lt_length (by decide)

theorem parse_accepts_grammar_of_nested :
    parse " (& (cn=a*)( !(ou>=\\)) ) )".toList =
        .ok ⟨"(& (cn=a*)( !(ou>=\\)) ) )".toList⟩ ∧
      parse "(& (cn=a*)( !(ou>=\\)) ) )".toList =
        .ok ⟨"(& (cn=a*)( !(ou>=\\)) ) )".toList⟩ := by
  have hblank : IsGap [' '] := by simp [IsGap, Text.isSeparator]
  have hnone : IsGap [] := by simp [IsGap]
  have hname : Derives .content "cn=a*".toList :=
    @Derives.assertion "cn".toList "=".toList "a*".toList
      (isAttribute_of_all (List.cons_ne_nil _ _) rfl) (by decide)
      (.plain (by decide) (.plain (by decide) .nil))
  have hunit : Derives .content "ou>=\\)".toList :=
    @Derives.assertion "ou".toList ">=".toList "\\)".toList
      (isAttribute_of_all (List.cons_ne_nil _ _) rfl) (by decide) (.escaped ')' .nil)
  have hnot : Derives .filter "( !(ou>=\\)) )".toList :=
    .filter hblank (.negation hnone (.filter hnone hunit hnone)) hblank
  have hall : Derives .filter "(& (cn=a*)( !(ou>=\\)) ) )".toList :=
    .filter hnone (.group (Or.inl rfl)
      (.more hblank (.filter hnone hname hnone) (.last hnone hnot))) hblank
  have hread := (parse_accepts_grammar (t := " (& (cn=a*)( !(ou>=\\)) ) )".toList)).1.2 ⟨hall, rfl⟩
  exact ⟨hread, parse_accepts_grammar.2 hread⟩

end SearchFilter

end DirectoryAccess
