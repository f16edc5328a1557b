import DirectoryAccess.Proofs.Text.Entries
import DirectoryAccess.Proofs.Text.Escape
import DirectoryAccess.Proofs.Text.Hereditary
import DirectoryAccess.Proofs.Text.Numeral
import DirectoryAccess.Proofs.Text.Unquoted

/-!
# Text on one line

Text without a line feed stays on one line when it is cut, trimmed, folded and
put together again.  Readers and printers do no more than that to a text, so what
they make of one line is one line.
-/

namespace DirectoryAccess

namespace Text

def IsLine (t : Text) : Prop :=
  '\n' ∉ t

instance (t : Text) : Decidable t.IsLine :=
  inferInstanceAs (Decidable ('\n' ∉ t))

@[simp] theorem isLine_nil : IsLine [] :=
  List.not_mem_nil

@[simp] theorem isLine_cons_iff {c : Char} {t : Text} : IsLine (c :: t) ↔ c ≠ '\n' ∧ t.IsLine := by
  rw [IsLine, List.mem_cons, not_or, ne_comm, IsLine]

@[simp] theorem isLine_append_iff {s t : Text} : IsLine (s ++ t) ↔ s.IsLine ∧ t.IsLine := by
  rw [IsLine, List.mem_append, not_or, IsLine, IsLine]

theorem isLine_of_forall {t : Text} (h : ∀ c ∈ t, c ≠ '\n') : t.IsLine :=
  fun hmem => h '\n' hmem rfl

/-- Every part stands in what is joined from the parts. -/
theorem isInfix_join {separator p : Text} {parts : List Text} (hp : p ∈ parts) :
    p <:+: join separator parts := by
  obtain ⟨front, back, rfl⟩ := List.append_of_mem hp
  cases front with
  | nil =>
      rw [List.nil_append, join_cons]
      exact (List.prefix_append _ _).isInfix
  | cons part front =>
      rw [List.cons_append, join_cons, List.flatMap_append, List.flatMap_cons]
      refine ⟨part ++ (front.flatMap (separator ++ ·) ++ separator),
        back.flatMap (separator ++ ·), ?_⟩
      simp only [List.append_assoc]

namespace IsLine

variable {s t : Text}

theorem of_subset (ht : t.IsLine) (h : s ⊆ t) : s.IsLine :=
  fun hmem => ht (h hmem)

theorem of_isInfix (ht : t.IsLine) (h : s <:+: t) : s.IsLine :=
  ht.of_subset h.subset

theorem dropWhile (ht : t.IsLine) (p : Char → Bool) : IsLine (t.dropWhile p) :=
  ht.of_isInfix (List.dropWhile_suffix p).isInfix

theorem trim (ht : t.IsLine) : (Text.trim t).IsLine :=
  ht.of_isInfix (trim_isInfix t)

theorem trimStart (ht : t.IsLine) : (Text.trimStart t).IsLine :=
  ht.of_isInfix (trimStart_isSuffix t).isInfix

theorem trimEnd (ht : t.IsLine) : (Text.trimEnd t).IsLine :=
  ht.of_isInfix (trimEnd_isPrefix t).isInfix

theorem cut? (ht : t.IsLine) {d : Char} {a b : Text} (h : Text.cut? d t = some (a, b)) :
    a.IsLine ∧ b.IsLine := by
  rw [(cut?_eq_some h).1, isLine_append_iff, isLine_cons_iff] at ht
  exact ⟨ht.1, ht.2.2⟩

theorem stripFold? (ht : t.IsLine) {word rest : Text} (h : Text.stripFold? word t = some rest) :
    rest.IsLine := by
  obtain ⟨front, rfl, -⟩ := stripFold?_eq_some h
  exact (isLine_append_iff.1 ht).2

theorem strip? (ht : t.IsLine) {word rest : Text} (h : Text.strip? word t = some rest) :
    rest.IsLine := by
  rw [strip?_eq_some h] at ht
  exact (isLine_append_iff.1 ht).2

theorem stripLast? (ht : t.IsLine) {c : Char} {front : Text}
    (h : Text.stripLast? c t = some front) : front.IsLine := by
  rw [stripLast?_eq_some_iff.1 h] at ht
  exact (isLine_append_iff.1 ht).1

theorem cutFold? (ht : t.IsLine) {word a b : Text} (hne : word ≠ [])
    (h : Text.cutFold? word t = some (a, b)) : a.IsLine ∧ b.IsLine := by
  obtain ⟨-, m, rfl, -⟩ := lacks_of_cutFold? hne h
  rw [isLine_append_iff, isLine_append_iff] at ht
  exact ⟨ht.1, ht.2.2⟩

theorem cutQuote? (ht : t.IsLine) {a b : Text} (h : Text.cutQuote? t = some (a, b)) :
    a.IsLine ∧ b.IsLine := by
  rw [(cutQuote?_eq_some_iff.1 h).1, isLine_append_iff, isLine_cons_iff] at ht
  exact ⟨ht.1, ht.2.2⟩

theorem part (ht : t.IsLine) {isMark : Char → Bool} {parts : List Text}
    (h : CutsInto isMark t parts) : ∀ p ∈ parts, p.IsLine :=
  fun p hp => ht.of_isInfix (h.isInfix p hp)

theorem splitOn (ht : t.IsLine) (d : Char) : ∀ p ∈ Text.splitOn d t, p.IsLine :=
  ht.part (@splitOn_cutsInto (fun _ => true) d rfl t)

theorem splitEscaped (ht : t.IsLine) (d : Char) : ∀ p ∈ Text.splitEscaped d t, p.IsLine :=
  ht.part (@splitEscaped_cutsInto (fun _ => true) d rfl t)

theorem splitAtDepthZero (ht : t.IsLine) {word : Text} (hne : word ≠ []) :
    ∀ p ∈ Text.splitAtDepthZero word t, p.IsLine :=
  ht.part (@splitAtDepth_cutsInto (fun _ => true) word hne (fun _ _ => rfl) 0 t)

theorem splitUnquoted (ht : t.IsLine) (d : Char) : ∀ p ∈ Text.splitUnquoted d t, p.IsLine := by
  intro p hp
  have hjoin : Text.join [d] (Text.splitUnquoted d t) = t := join_splitUnquotedFrom d false t
  exact ht.of_isInfix (hjoin ▸ isInfix_join hp)

theorem entry (ht : t.IsLine) {e : Text} (he : e ∈ entries t) : e.IsLine := by
  obtain ⟨part, hpart, rfl, -⟩ := mem_entries he
  exact (ht.part (@splitBars_cutsInto (fun _ => true) rfl t) part hpart).trim

theorem commaEntry (ht : t.IsLine) {e : Text} (he : e ∈ commaEntries t) : e.IsLine := by
  obtain ⟨part, hpart, rfl, -⟩ := mem_commaEntries he
  exact (ht.splitOn ',' part hpart).trim

theorem join {separator : Text} (hseparator : separator.IsLine) {parts : List Text}
    (hparts : ∀ p ∈ parts, p.IsLine) : (Text.join separator parts).IsLine := by
  intro hmem
  rcases mem_join hmem with hmem | ⟨p, hp, hmem⟩
  · exact hseparator hmem
  · exact hparts p hp hmem

theorem flatMap {α : Type} {f : α → Text} {as : List α} (h : ∀ a ∈ as, (f a).IsLine) :
    IsLine (as.flatMap f) := by
  intro hmem
  obtain ⟨a, ha, hmem⟩ := List.mem_flatMap.1 hmem
  exact h a ha hmem

theorem lower (ht : t.IsLine) : (Text.lower t).IsLine := by
  intro hmem
  obtain ⟨c, hc, heq⟩ := List.mem_map.1 hmem
  rw [eq_of_toLower (by decide) heq] at hc
  exact ht hc

theorem enclose (ht : t.IsLine) (written : Bool) : (Text.enclose written t).IsLine := by
  cases written with
  | false => exact ht
  | true => simpa [Text.enclose] using ht

end IsLine

@[simp] theorem isLine_quote_iff {t : Text} : (quote t).IsLine ↔ t.IsLine := by
  simp [quote]

theorem isLine_ofNat (n : Nat) : (ofNat n).IsLine :=
  isLine_of_forall fun c hc heq => by
    have hdigit := isDigit_of_mem_ofNat hc
    rw [heq] at hdigit
    cases hdigit

/-- Whatever holds of a text on one line holds of all that is read from it on the way. -/
theorem isLine_isHereditary : IsHereditary IsLine where
  letters {t} ht := isLine_of_forall fun c hc heq => by
    have hletter := ht c hc
    rw [heq] at hletter
    cases hletter
  append_cons {c} hc s t hs ht := by
    have hne : c ≠ '\n' := by
      rintro rfl
      exact absurd hc (by decide)
    simpa [hs, ht] using hne
  of_append_cons hc s t h := by
    rw [isLine_append_iff, isLine_cons_iff] at h
    exact ⟨h.1, h.2.2⟩
  blank_cons ht := by simpa using ht
  blank_concat ht := by simpa using ht
  trim := .trim

end Text

end DirectoryAccess
