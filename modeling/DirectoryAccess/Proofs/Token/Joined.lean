import DirectoryAccess.Proofs.Text.Trim
import DirectoryAccess.Proofs.Token.Target

/-!
# Scanning texts put together

The tokens of a target rule stay what they are when white space is trimmed off
the text, and when a text is put behind it that does not go on with a keyword.
-/

namespace DirectoryAccess

namespace TargetToken

theorem isBlank_of_isKeywordChar {c : Char} (h : isKeywordChar c = true) :
    Text.isBlank c = false := by
  by_contra hblank
  simp only [Text.isBlank, Bool.not_eq_false, Bool.or_eq_true, Bool.and_eq_true,
    decide_eq_true_eq, beq_iff_eq, UInt32.le_iff_toNat_le, ← UInt32.toNat_inj] at hblank
  unfold isKeywordChar Char.isAlpha Char.isUpper Char.isLower at h
  simp only [Bool.or_eq_true, Bool.and_eq_true, decide_eq_true_eq, beq_iff_eq, ge_iff_le,
    UInt32.le_iff_toNat_le] at h
  rcases h with h | rfl
  · simp at h hblank
    omega
  · simp at hblank

namespace Takes

variable {t rest : Text} {token : TargetToken}

theorem exists_head (h : Takes t token rest) : ∃ c u, t = c :: u ∧ Text.isBlank c = false := by
  cases h with
  | openParen => exact ⟨_, _, rfl, by decide⟩
  | closeParen => exact ⟨_, _, rfl, by decide⟩
  | @operator op hop =>
      cases op with
      | eq => exact ⟨_, _, rfl, by decide⟩
      | ne => exact ⟨_, _, rfl, by decide⟩
      | _ => cases hop
  | bars => exact ⟨_, _, rfl, by decide⟩
  | value => exact ⟨_, _, rfl, by decide⟩
  | @keyword word rest hne hword =>
      obtain ⟨c, cs, rfl⟩ := List.exists_cons_of_ne_nil hne
      exact ⟨c, cs ++ rest, rfl, isBlank_of_isKeywordChar (hword c (by simp))⟩

theorem read (h : Takes t token rest) : TargetToken.read t = .token token rest := by
  cases h with
  | openParen => rfl
  | closeParen => rfl
  | @operator op hop =>
      cases op with
      | eq => rfl
      | ne => rfl
      | _ => cases hop
  | bars => rfl
  | value hrun => simp [TargetToken.read, Text.closeRun?_of_isClosed hrun]
  | @keyword word rest hne hword hrest =>
      obtain ⟨c, cs, rfl⟩ := List.exists_cons_of_ne_nil hne
      exact read_keyword hword hrest

/-- A token is taken again in front of a rest that does not go on with a keyword. -/
theorem exists_last (h : Takes t token rest) :
    ∃ s c, t = s ++ c :: rest ∧ Text.isBlank c = false ∧
      ∀ rest' : Text, (∀ d ∈ rest'.head?, d ∈ rest.head? ∨ isKeywordChar d = false) →
        Takes (s ++ c :: rest') token rest' := by
  cases h with
  | openParen => exact ⟨[], '(', rfl, by decide, fun rest' _ => .openParen rest'⟩
  | closeParen => exact ⟨[], ')', rfl, by decide, fun rest' _ => .closeParen rest'⟩
  | @operator op hop =>
      cases op with
      | eq => exact ⟨[], '=', rfl, by decide, fun rest' _ => @operator .eq rfl rest'⟩
      | ne => exact ⟨['!'], '=', rfl, by decide, fun rest' _ => @operator .ne rfl rest'⟩
      | _ => cases hop
  | bars => exact ⟨['|'], '|', rfl, by decide, fun rest' _ => .bars rest'⟩
  | @value run hrun => exact ⟨'"' :: run, '"', rfl, by decide, fun rest' _ => .value hrun rest'⟩
  | @keyword word rest hne hword hrest =>
      obtain ⟨front, c, rfl⟩ := (List.eq_nil_or_concat' word).resolve_left hne
      refine ⟨front, c, by simp, isBlank_of_isKeywordChar (hword c (by simp)), fun rest' hrest' => ?_⟩
      have htakes : Takes (front ++ [c] ++ rest') (.keyword (front ++ [c])) rest' := by
        refine .keyword hne hword fun d hd => ?_
        rcases hrest' d hd with hmem | hd
        · exact hrest d hmem
        · exact hd
      rwa [List.append_assoc] at htakes

theorem scan (h : Takes t token rest) : reader.scan t = (reader.scan rest).map (token :: ·) := by
  obtain ⟨c, u, rfl, hc⟩ := h.exists_head
  exact reader.scan_token (Text.isSeparator_of_isBlank_eq_false hc) h.read

end Takes

theorem isBlank_of_isSeparator {c : Char} (h : Text.isSeparator c = true) :
    Text.isBlank c = true := by
  by_contra hblank
  rw [Text.isSeparator_of_isBlank_eq_false (by simpa using hblank)] at h
  cases h

/-- The first token of a text is scanned in front of other texts too. -/
theorem exists_first_of_read {t rest : Text} {token : TargetToken}
    (h : read (Text.skipSeparators t) = .token token rest) :
    ∃ s c, t = s ++ c :: rest ∧ Text.isBlank c = false ∧
      ∀ rest' : Text, (∀ d ∈ rest'.head?, d ∈ rest.head? ∨ isKeywordChar d = false) →
        reader.scan (s ++ c :: rest') = (reader.scan rest').map (token :: ·) := by
  obtain ⟨s, c, hskip, hc, htakes⟩ := (takes_of_read h).exists_last
  obtain ⟨gap, hsplit, hgap⟩ := Text.exists_separators_append t
  refine ⟨gap ++ s, c, ?_, hc, fun rest' hrest' => ?_⟩
  · rw [List.append_assoc, ← hskip, ← hsplit]
  · rw [List.append_assoc, reader.scan_separators_append hgap]
    exact (htakes rest' hrest').scan

/-- A text that is scanned starts with separators and then ends or goes on with a token. -/
theorem scan_trimStart {t : Text} {ts : List TargetToken} (h : reader.scan t = .ok ts) :
    reader.scan (Text.trimStart t) = .ok ts := by
  induction t with
  | nil => exact h
  | cons c t ih =>
      cases hsep : Text.isSeparator c with
      | true =>
          rw [reader.scan_separator hsep] at h
          rw [Text.trimStart, List.dropWhile_cons_of_pos (isBlank_of_isSeparator hsep)]
          exact ih h
      | false =>
          obtain ⟨token, rest, us, hread, -, -⟩ := reader.exists_of_scan_cons hsep h
          obtain ⟨d, u, heq, hd⟩ := (takes_of_read hread).exists_head
          obtain ⟨rfl, -⟩ := List.cons.inj heq
          rwa [Text.trimStart_eq_self (by simpa using hd)]

theorem scan_trimEnd {t : Text} {ts : List TargetToken} (h : reader.scan t = .ok ts) :
    reader.scan (Text.trimEnd t) = .ok ts := by
  refine reader.scan_induction (motive := fun t ts => reader.scan (Text.trimEnd t) = .ok ts)
    ?_ ?_ h
  · intro t ht
    have hblank : ∀ c ∈ t.reverse, Text.isBlank c = true := by
      intro c hc
      exact isBlank_of_isSeparator (List.dropWhile_eq_nil_iff.1 ht c (List.mem_reverse.1 hc))
    rw [Text.trimEnd, List.dropWhile_eq_nil_iff.2 hblank]
    exact reader.scan_nil
  · intro t found rest ts hread ih
    obtain ⟨s, c, rfl, hc, hscan⟩ := exists_first_of_read hread
    rw [Text.trimEnd_append_cons hc, hscan _ fun d hd => Or.inl ?_, ih]
    · rfl
    · obtain ⟨u, hu⟩ := Text.trimEnd_isPrefix rest
      rw [← hu, List.head?_append, Option.mem_def.1 hd]
      rfl

theorem scan_trim {t : Text} {ts : List TargetToken} (h : reader.scan t = .ok ts) :
    reader.scan (Text.trim t) = .ok ts :=
  scan_trimEnd (scan_trimStart h)

theorem scan_append {s t : Text} {ts : List TargetToken} (h : reader.scan s = .ok ts)
    (ht : ∀ c ∈ t.head?, isKeywordChar c = false) :
    reader.scan (s ++ t) = (reader.scan t).map (ts ++ ·) := by
  refine reader.scan_induction
    (motive := fun s ts => reader.scan (s ++ t) = (reader.scan t).map (ts ++ ·)) ?_ ?_ h
  · intro s hs
    rw [reader.scan_separators_append (List.dropWhile_eq_nil_iff.1 hs)]
    cases reader.scan t <;> rfl
  · intro s found rest ts hread ih
    obtain ⟨front, c, rfl, -, hscan⟩ := exists_first_of_read hread
    have hnext : ∀ d ∈ (rest ++ t).head?, d ∈ rest.head? ∨ isKeywordChar d = false := by
      intro d hd
      cases rest with
      | nil => exact Or.inr (ht d hd)
      | cons e rest => exact Or.inl hd
    rw [List.append_assoc, List.cons_append, hscan _ hnext, ih]
    cases reader.scan t <;> rfl

end TargetToken

end DirectoryAccess
