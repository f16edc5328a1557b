import DirectoryAccess.Proofs.Text.Split
import DirectoryAccess.Proofs.Text.Trim
import DirectoryAccess.Value.Attributes

/-!
# What a text is cut into

Every splitter cuts its text at separators and returns what stands between them,
so that each part stands in the text as it is.
-/

namespace DirectoryAccess

namespace Text

/-- The parts follow one another in the text, with words of separators between them. -/
inductive CutsInto (isMark : Char → Bool) : Text → List Text → Prop where
  | whole (t : Text) : CutsInto isMark t [t]
  | cut {word t : Text} {parts : List Text} (part : Text) (hne : word ≠ [])
      (hword : ∀ c ∈ word, isMark c = true) (h : CutsInto isMark t parts) :
      CutsInto isMark (part ++ (word ++ t)) (part :: parts)

namespace CutsInto

variable {isMark : Char → Bool} {t : Text} {parts : List Text}

theorem consPart (c : Char) (h : CutsInto isMark t parts) :
    CutsInto isMark (c :: t) (Text.consPart c parts) := by
  cases h with
  | whole => exact .whole (c :: t)
  | cut part hne hword h => exact .cut (c :: part) hne hword h

theorem isInfix (h : CutsInto isMark t parts) : ∀ p ∈ parts, p <:+: t := by
  induction h with
  | whole t => simp
  | @cut word t parts part hne hword h ih =>
      intro p hp
      rcases List.mem_cons.1 hp with rfl | hp
      · exact (List.prefix_append _ _).isInfix
      · have hsuffix : t <:+ part ++ (word ++ t) :=
          (List.suffix_append word t).trans (List.suffix_append part _)
        exact (ih p hp).trans hsuffix.isInfix

end CutsInto

theorem splitOn_cutsInto {isMark : Char → Bool} {d : Char} (hd : isMark d = true) (t : Text) :
    CutsInto isMark t (splitOn d t) := by
  induction t with
  | nil => exact .whole []
  | cons c cs ih =>
      rw [splitOn]
      split
      · rename_i hc
        subst hc
        exact .cut [] (List.cons_ne_nil c []) (by simpa using hd) ih
      · exact ih.consPart c

theorem splitEscaped_ne_nil (d : Char) (t : Text) : splitEscaped d t ≠ [] := by
  fun_cases splitEscaped d t with
  | case1 => simp
  | case2 => exact consPart_ne_nil _ _
  | case3 => simp
  | case4 => exact consPart_ne_nil _ _

theorem splitEscaped_cutsInto {isMark : Char → Bool} {d : Char} (hd : isMark d = true) (t : Text) :
    CutsInto isMark t (splitEscaped d t) := by
  fun_induction splitEscaped d t with
  | case1 => exact .whole []
  | case2 c cs ih => exact (ih.consPart c).consPart '\\'
  | case3 cs hno ih => exact .cut [] (List.cons_ne_nil d []) (by simpa using hd) ih
  | case4 c cs hno hc ih => exact ih.consPart c

theorem splitBars_cutsInto {isMark : Char → Bool} (hbar : isMark '|' = true) (t : Text) :
    CutsInto isMark t (splitBars t) := by
  fun_induction splitBars t with
  | case1 => exact .whole []
  | case2 cs ih =>
      have hword : ∀ c ∈ "||".toList, isMark c = true := by simpa using hbar
      exact .cut [] (by decide) hword ih
  | case3 c cs hno ih => exact ih.consPart c

theorem strip?_eq_some {word t rest : Text} (h : strip? word t = some rest) : t = word ++ rest := by
  fun_induction strip? word t with
  | case1 => simpa using h
  | case2 w ws cs ih => rw [List.cons_append, ih h]
  | case3 => cases h
  | case4 => cases h

theorem cons_eq_append_drop {word : Text} (hne : word ≠ []) {c : Char} {cs : Text}
    (h : word <+: c :: cs) : c :: cs = word ++ cs.drop (word.length - 1) := by
  have hpos : 0 < word.length := List.length_pos_iff.2 hne
  have hdrop : (c :: cs).drop word.length = cs.drop (word.length - 1) := List.drop_cons hpos
  rw [← hdrop]
  exact (List.prefix_iff_eq_append.1 h).symm

theorem splitAtDepth_cutsInto {isMark : Char → Bool} {word : Text} (hne : word ≠ [])
    (hword : ∀ c ∈ word, isMark c = true) (depth : Nat) (t : Text) :
    CutsInto isMark t (splitAtDepth word depth t) := by
  fun_induction splitAtDepth word depth t with
  | case1 => exact .whole []
  | case2 depth c cs hhere ih =>
      simp only [Bool.and_eq_true, decide_eq_true_eq, Option.isSome_iff_exists] at hhere
      obtain ⟨-, rest, hrest⟩ := hhere
      rw [cons_eq_append_drop hne ⟨rest, (strip?_eq_some hrest).symm⟩]
      exact .cut [] hne hword ih
  | case3 depth c cs hhere ih => exact ih.consPart c

theorem mem_entries {t e : Text} (h : e ∈ entries t) :
    ∃ part ∈ splitBars t, e = trim part ∧ e ≠ [] := by
  obtain ⟨hmem, hne⟩ := List.mem_filter.1 h
  obtain ⟨part, hpart, rfl⟩ := List.mem_map.1 hmem
  exact ⟨part, hpart, rfl, by simpa using hne⟩

end Text

theorem FilterChanges.splitOperations_cutsInto {isMark : Char → Bool} (hcomma : isMark ',' = true)
    (hsemicolon : isMark ';' = true) (depth : Nat) (t : Text) :
    Text.CutsInto isMark t (splitOperationsFrom depth t) := by
  fun_induction splitOperationsFrom depth t with
  | case1 => exact .whole []
  | case2 depth c cs hcut ih =>
      simp only [Bool.and_eq_true, Bool.or_eq_true, beq_iff_eq] at hcut
      have hc : isMark c = true := by
        rcases hcut.1.2 with rfl | rfl
        · exact hcomma
        · exact hsemicolon
      exact .cut [] (List.cons_ne_nil c []) (by simpa using hc) ih
  | case3 depth c cs hcut ih => exact ih.consPart c

end DirectoryAccess
