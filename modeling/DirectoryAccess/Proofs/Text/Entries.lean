import DirectoryAccess.Proofs.Text.Lacking
import DirectoryAccess.Proofs.Text.Parts

/-!
# The entries of joined text

A list is written with a separator between its entries and read by splitting at
the separator and trimming.  Trimmed entries that do not hold the separator come
back as they are; between bars, texts that hold separators of their own come back
as the entries of each.
-/

namespace DirectoryAccess

namespace Text

theorem isTrimmed_join {c : Char} (hc : isBlank c = false) {parts : List Text}
    (h : ∀ p ∈ parts, p.IsTrimmed) : (join [c] parts).IsTrimmed :=
  join_induction (P := IsTrimmed) ⟨by simp, by simp⟩
    (fun _ _ hs ht => isTrimmed_append_cons hc hs ht) h

theorem mem_commaEntries {t e : Text} (h : e ∈ commaEntries t) :
    ∃ part ∈ splitOn ',' t, e = trim part ∧ e ≠ [] := by
  obtain ⟨hmem, hne⟩ := List.mem_filter.1 h
  obtain ⟨part, hpart, rfl⟩ := List.mem_map.1 hmem
  exact ⟨part, hpart, rfl, by simpa using hne⟩

structure IsCommaEntry (e : Text) : Prop where
  ne_nil : e ≠ []
  trimmed : e.IsTrimmed
  noComma : ',' ∉ e

theorem not_mem_of_mem_splitOn {d : Char} {t p : Text} (h : p ∈ splitOn d t) : d ∉ p := by
  induction t generalizing p with
  | nil =>
      rw [splitOn, List.mem_singleton] at h
      simp [h]
  | cons c cs ih =>
      rw [splitOn] at h
      split at h
      · rcases List.mem_cons.1 h with rfl | h
        · simp
        · exact ih h
      · rename_i hc
        obtain ⟨part, parts, hparts⟩ := List.exists_cons_of_ne_nil (splitOn_ne_nil d cs)
        rw [hparts] at h ih
        rcases List.mem_cons.1 h with rfl | h
        · have hpart := ih (List.mem_cons_self)
          simpa [hpart] using Ne.symm hc
        · exact ih (List.mem_cons_of_mem part h)

theorem isCommaEntry_of_mem {t e : Text} (h : e ∈ commaEntries t) : IsCommaEntry e := by
  obtain ⟨part, hpart, rfl, hne⟩ := mem_commaEntries h
  refine ⟨hne, isTrimmed_trim part, fun hmem => ?_⟩
  exact not_mem_of_mem_splitOn hpart ((trim_isInfix part).subset hmem)

theorem filter_map_trim {parts : List Text} (hne : ∀ p ∈ parts, p ≠ [])
    (htrim : ∀ p ∈ parts, p.IsTrimmed) :
    ((parts.map trim).filter fun p => !p.isEmpty) = parts := by
  have hmap : parts.map trim = parts := by
    rw [List.map_congr_left fun p hp => trim_eq_self (htrim p hp), List.map_id']
  rw [hmap, List.filter_eq_self]
  intro p hp
  simpa using hne p hp

/-- Entries joined by commas come back. -/
theorem commaEntries_join {parts : List Text} (h : ∀ p ∈ parts, IsCommaEntry p) :
    commaEntries (join [','] parts) = parts := by
  by_cases hparts : parts = []
  · rw [hparts]
    rfl
  · rw [commaEntries, splitOn_join hparts fun p hp => (h p hp).noComma]
    exact filter_map_trim (fun p hp => (h p hp).ne_nil) fun p hp => (h p hp).trimmed

theorem commaEntries_of_isBlankText {t : Text} (h : isBlankText t = true) :
    commaEntries t = [] := by
  rw [List.eq_nil_iff_forall_not_mem]
  intro e he
  obtain ⟨part, hpart, rfl, hne⟩ := mem_commaEntries he
  have hcuts : CutsInto (· == ',') t (splitOn ',' t) := splitOn_cutsInto (by decide) t
  exact hne (isBlankText_iff.1 (isBlankText_of_isInfix h (hcuts.isInfix part hpart)))

def bars : Text :=
  "||".toList

theorem lacks_bars_iff {t : Text} : Lacks bars t ↔ ¬bars <:+: t := by
  constructor
  · intro h hbars
    exact h bars hbars rfl
  · intro h m hm hlower
    have hsame : m = bars := eq_of_lower (by decide) hlower
    exact h (hsame ▸ hm)

theorem splitBars_cons {c : Char} {t : Text} (h : c = '|' → t.head? ≠ some '|') :
    splitBars (c :: t) = consPart c (splitBars t) := by
  rw [splitBars]
  rintro cs rfl rfl
  exact h rfl rfl

/-- In a text without bars, no bar stands behind a first bar. -/
theorem head?_of_lacks_bars {c : Char} {t : Text} (h : Lacks bars (c :: t)) (hc : c = '|') :
    t.head? ≠ some '|' := by
  intro hhead
  cases t with
  | nil => cases hhead
  | cons d t =>
      cases hhead
      subst hc
      exact lacks_bars_iff.1 h (List.prefix_append bars t).isInfix

theorem splitBars_of_lacks {t : Text} (h : Lacks bars t) : splitBars t = [t] := by
  induction t with
  | nil => rfl
  | cons c cs ih =>
      rw [splitBars_cons (head?_of_lacks_bars h), ih (h.of_isInfix (List.suffix_cons c cs).isInfix)]
      rfl

/-- A blank in front of bars parts them from the bars that may stand before it. -/
theorem splitBars_append (s t : Text) :
    splitBars (s ++ ' ' :: '|' :: '|' :: t) = splitBars (s ++ [' ']) ++ splitBars t := by
  fun_induction splitBars s with
  | case1 =>
      rw [List.nil_append, splitBars_cons (fun hc => absurd hc (by decide)), splitBars]
      rfl
  | case2 cs ih =>
      rw [List.cons_append, List.cons_append, splitBars, ih, List.cons_append, List.cons_append,
        splitBars, List.cons_append]
  | case3 c cs hno ih =>
      have hhead (rest : Text) : c = '|' → (cs ++ ' ' :: rest).head? ≠ some '|' := by
        rintro rfl
        cases cs with
        | nil => simp
        | cons d cs => simpa using hno cs rfl
      rw [List.cons_append, List.cons_append, splitBars_cons (hhead _), splitBars_cons (hhead []),
        ih, consPart_append c (splitBars_ne_nil _)]

/-- A blank behind a text stands behind its last part. -/
theorem exists_splitBars_concat (s : Text) :
    ∃ front last, splitBars s = front ++ [last] ∧
      splitBars (s ++ [' ']) = front ++ [last ++ [' ']] := by
  fun_induction splitBars s with
  | case1 => exact ⟨[], [], rfl, rfl⟩
  | case2 cs ih =>
      obtain ⟨front, last, hsplit, hblank⟩ := ih
      refine ⟨[] :: front, last, by rw [hsplit, List.cons_append], ?_⟩
      rw [List.cons_append, List.cons_append, splitBars, hblank, List.cons_append]
  | case3 c cs hno ih =>
      obtain ⟨front, last, hsplit, hblank⟩ := ih
      have hhead : c = '|' → (cs ++ [' ']).head? ≠ some '|' := by
        rintro rfl
        cases cs with
        | nil => simp
        | cons d cs => simpa using hno cs rfl
      rw [List.cons_append, splitBars_cons hhead, hsplit, hblank]
      cases front with
      | nil => exact ⟨[], c :: last, rfl, rfl⟩
      | cons part front => exact ⟨(c :: part) :: front, last, rfl, rfl⟩

theorem lacks_of_mem_splitBars {t p : Text} (h : p ∈ splitBars t) : Lacks bars p := by
  fun_induction splitBars t generalizing p with
  | case1 =>
      rw [List.mem_singleton.1 h]
      exact .nil (by decide)
  | case2 cs ih =>
      rcases List.mem_cons.1 h with rfl | h
      · exact .nil (by decide)
      · exact ih h
  | case3 c cs hno ih =>
      obtain ⟨part, parts, hparts⟩ := List.exists_cons_of_ne_nil (splitBars_ne_nil cs)
      have hjoin := join_splitBars cs
      rw [hparts] at h ih hjoin
      rw [join_cons] at hjoin
      rcases List.mem_cons.1 h with rfl | h
      · have hpart : Lacks bars part := ih List.mem_cons_self
        rw [lacks_bars_iff] at hpart ⊢
        intro hbars
        rcases List.infix_cons_iff.1 hbars with hbars | hbars
        · obtain ⟨rfl, hbar⟩ := List.cons_prefix_cons.1 hbars
          obtain ⟨rest, hrest⟩ := hbar
          refine hno (rest ++ parts.flatMap ("||".toList ++ ·)) rfl ?_
          rw [← hjoin, ← hrest]
          rfl
        · exact hpart hbars
      · exact ih (List.mem_cons_of_mem part h)

theorem entries_of_isBlankText {t : Text} (h : isBlankText t = true) : entries t = [] := by
  rw [List.eq_nil_iff_forall_not_mem]
  intro e he
  obtain ⟨part, hpart, rfl, hne⟩ := mem_entries he
  have hcuts : CutsInto (· == '|') t (splitBars t) := splitBars_cutsInto (by decide) t
  exact hne (isBlankText_iff.1 (isBlankText_of_isInfix h (hcuts.isInfix part hpart)))

structure IsBarEntry (e : Text) : Prop where
  ne_nil : e ≠ []
  trimmed : e.IsTrimmed
  noBars : Lacks bars e

theorem isBarEntry_of_mem {t e : Text} (h : e ∈ entries t) : IsBarEntry e := by
  obtain ⟨part, hpart, rfl, hne⟩ := mem_entries h
  exact ⟨hne, isTrimmed_trim part, (lacks_of_mem_splitBars hpart).of_isInfix (trim_isInfix part)⟩

theorem entries_blank_cons (t : Text) : entries (' ' :: t) = entries t := by
  obtain ⟨part, parts, hparts⟩ := List.exists_cons_of_ne_nil (splitBars_ne_nil t)
  rw [entries, entries, splitBars_cons (fun hc => absurd hc (by decide)), hparts, consPart,
    List.map_cons, List.map_cons, trim_cons_blank (by decide)]

theorem entries_concat_blank (t : Text) : entries (t ++ [' ']) = entries t := by
  obtain ⟨front, last, hsplit, hblank⟩ := exists_splitBars_concat t
  rw [entries, entries, hsplit, hblank, List.map_append, List.map_append, List.map_singleton,
    List.map_singleton, trim_append_blanks rfl]

/-- Spaced bars part a text in two whose entries follow one another. -/
theorem entries_append (s t : Text) :
    entries (s ++ (" || ".toList ++ t)) = entries s ++ entries t := by
  have hseparator : " || ".toList ++ t = ' ' :: '|' :: '|' :: ' ' :: t := rfl
  rw [hseparator, entries, splitBars_append, List.map_append, List.filter_append, ← entries,
    ← entries, entries_concat_blank, entries_blank_cons]

/-- The entries of joined text are those of its parts, whatever bars the parts hold. -/
theorem entries_join_eq_flatMap (parts : List Text) :
    entries (join " || ".toList parts) = parts.flatMap entries := by
  induction parts with
  | nil => rfl
  | cons part parts ih =>
      cases parts with
      | nil => rw [join_singleton, List.flatMap_singleton]
      | cons next parts => rw [List.flatMap_cons, ← ih, join_cons_cons, entries_append]

theorem IsBarEntry.entries_eq {e : Text} (h : IsBarEntry e) : entries e = [e] := by
  rw [entries, splitBars_of_lacks h.noBars, List.map_singleton, trim_eq_self h.trimmed,
    List.filter_cons_of_pos (by simpa using h.ne_nil), List.filter_nil]

/-- Entries joined by bars come back. -/
theorem entries_join {parts : List Text} (h : ∀ p ∈ parts, IsBarEntry p) :
    entries (join " || ".toList parts) = parts := by
  rw [entries_join_eq_flatMap, List.flatMap_congr fun p hp => (h p hp).entries_eq,
    List.flatMap_singleton']

end Text

end DirectoryAccess
