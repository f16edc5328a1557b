import DirectoryAccess.Error
import DirectoryAccess.Proofs.Text.Join
import DirectoryAccess.Proofs.Text.Lacking
import DirectoryAccess.Proofs.Text.Measure
import DirectoryAccess.Proofs.Text.Parts

/-!
# Properties that pass from a text to what is read from it

The readers of target values cut a text at marks, trim the parts, and put them
together with marks, blanks and fixed words.  A property that passes through all
of this holds of what a value writes if it holds of what was read.  Two such
properties are that every quote is escaped, and that the words which announce the
version of the language stand nowhere in the text.
-/

namespace DirectoryAccess

namespace Text

/-- The marks that target values are written with. -/
def isMark (c : Char) : Bool :=
  c == '|' || c == '&' || c == '=' || c == ':' || c == '(' || c == ')' || c == '/' || c == ',' ||
    c == '*'

/-- A property that passes from a text to its parts and back. -/
structure IsHereditary (P : Text → Prop) : Prop where
  letters {t : Text} : (∀ c ∈ t, c.isAlpha = true) → P t
  append_cons {c : Char} : isMark c = true → ∀ {s t}, P s → P t → P (s ++ c :: t)
  of_append_cons {c : Char} :
    (isMark c || c == ';') = true → ∀ {s t}, P (s ++ c :: t) → P s ∧ P t
  blank_cons {t : Text} : P t → P (' ' :: t)
  blank_concat {t : Text} : P t → P (t ++ [' '])
  trim {t : Text} : P t → P (Text.trim t)

namespace IsHereditary

variable {P : Text → Prop} (hP : IsHereditary P)

include hP

theorem nil : P [] :=
  hP.letters fun _ hc => absurd hc List.not_mem_nil

theorem mark_cons {c : Char} (hc : isMark c = true) {t : Text} (ht : P t) : P (c :: t) :=
  hP.append_cons hc hP.nil ht

theorem mark_concat {c : Char} (hc : isMark c = true) {t : Text} (ht : P t) : P (t ++ [c]) :=
  hP.append_cons hc ht hP.nil

theorem of_append_word {word : Text} (hne : word ≠ [])
    (hword : ∀ c ∈ word, (isMark c || c == ';') = true) {s t : Text} (h : P (s ++ (word ++ t))) :
    P s ∧ P t := by
  induction word generalizing s with
  | nil => exact absurd rfl hne
  | cons c cs ih =>
      obtain ⟨hs, hrest⟩ := hP.of_append_cons (hword c (by simp)) h
      refine ⟨hs, ?_⟩
      cases cs with
      | nil => exact hrest
      | cons d ds =>
          exact (ih (List.cons_ne_nil d ds) (fun e he => hword e (List.mem_cons_of_mem c he))
            (s := []) hrest).2

theorem part {t : Text} {parts : List Text}
    (h : CutsInto (fun c => isMark c || c == ';') t parts) (ht : P t) : ∀ p ∈ parts, P p := by
  induction h with
  | whole t => simpa using ht
  | cut part hne hword h ih =>
      obtain ⟨hpart, hrest⟩ := hP.of_append_word hne hword ht
      intro p hp
      rcases List.mem_cons.1 hp with rfl | hp
      · exact hpart
      · exact ih hrest p hp

theorem entry {t e : Text} (ht : P t) (he : e ∈ entries t) : P e := by
  obtain ⟨part, hpart, rfl, -⟩ := mem_entries he
  exact hP.trim (hP.part (splitBars_cutsInto rfl t) ht part hpart)

theorem cut? {d : Char} (hd : isMark d = true) {t a b : Text} (ht : P t)
    (h : Text.cut? d t = some (a, b)) : P a ∧ P b := by
  rw [(cut?_eq_some h).1] at ht
  exact hP.of_append_cons (by rw [hd, Bool.true_or]) ht

theorem join {separator : Text}
    (hseparator : ∀ s t, P s → P t → P (s ++ (separator ++ t))) {parts : List Text}
    (hparts : ∀ p ∈ parts, P p) : P (Text.join separator parts) :=
  join_induction hP.nil hseparator hparts

/-- Two marks between blanks join parts. -/
theorem join_spaced {c : Char} (hc : isMark c = true) {parts : List Text}
    (hparts : ∀ p ∈ parts, P p) : P (Text.join [' ', c, c, ' '] parts) := by
  refine hP.join (fun s t hs ht => ?_) hparts
  have hrest := hP.append_cons hc (hP.blank_concat hs)
    (hP.mark_cons hc (hP.blank_cons ht))
  simpa using hrest

theorem join_comma {parts : List Text} (hparts : ∀ p ∈ parts, P p) :
    P (Text.join [','] parts) :=
  hP.join (fun _ _ hs ht => hP.append_cons (by decide) hs ht) hparts

end IsHereditary

theorem quotesEscaped_trim {t : Text} (h : quotesEscaped false t = true) :
    quotesEscaped false (trim t) = true := by
  rw [← openQuotes_eq_zero_iff] at h ⊢
  rw [openQuotes_isMeasure.trim, h]

theorem quotesEscaped_isHereditary : IsHereditary fun t => quotesEscaped false t = true where
  letters {t} ht := by
    refine quotesEscaped_of_not_mem (fun hmem => ?_) false
    exact absurd (ht _ hmem) (by decide)
  append_cons {c} hc s t hs ht := by
    have hplain : c ≠ '"' ∧ c ≠ '\\' := by
      constructor <;> rintro rfl <;> exact absurd hc (by decide)
    rw [quotesEscaped_append_cons hplain.1 hplain.2, hs, ht]
    rfl
  of_append_cons {c} hc s t h := by
    have hplain : c ≠ '"' ∧ c ≠ '\\' := by
      constructor <;> rintro rfl <;> exact absurd hc (by decide)
    rwa [quotesEscaped_append_cons hplain.1 hplain.2, Bool.and_eq_true] at h
  blank_cons ht := by rwa [quotesEscaped_cons (by decide) (by decide)]
  blank_concat ht := by rw [quotesEscaped_append_cons (by decide) (by decide), ht]; rfl
  trim := quotesEscaped_trim

theorem lacks_isHereditary : IsHereditary (Lacks versionMarker) where
  letters {t} ht := by
    intro m hm hlower
    have hblank : ' ' ∈ lower versionMarker := by decide
    rw [← hlower] at hblank
    obtain ⟨c, hc, heq⟩ := List.mem_map.1 hblank
    rw [eq_of_toLower (by decide) heq] at hc
    exact absurd (ht ' ' (hm.subset hc)) (by decide)
  append_cons {c} hc s t hs ht := by
    refine hs.append_cons ?_ ht
    simp only [isMark, Bool.or_eq_true, beq_iff_eq] at hc
    rcases hc with (((((((rfl | rfl) | rfl) | rfl) | rfl) | rfl) | rfl) | rfl) | rfl <;> decide
  of_append_cons {c} hc s t h :=
    ⟨h.of_isInfix (List.prefix_append _ _).isInfix,
      h.of_isInfix ((List.suffix_cons c t).trans (List.suffix_append s _)).isInfix⟩
  blank_cons ht := ht.cons (by decide)
  blank_concat ht := ht.concat (by decide)
  trim ht := ht.of_isInfix (trim_isInfix _)

end Text

end DirectoryAccess
