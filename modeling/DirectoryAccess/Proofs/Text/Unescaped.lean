import DirectoryAccess.Proofs.Text.Escape
import DirectoryAccess.Proofs.Text.Parts

/-!
# Splitting at unescaped delimiters

The parts of a text that is split at unescaped delimiters stand in the text one
behind the other.  A delimiter escapes nothing, so each part starts as a text by
itself does: what is escaped inside the part is what is escaped there in the whole.
-/

namespace DirectoryAccess

namespace Text

/-- Nothing is lost of a text that is split. -/
theorem join_splitEscaped (d : Char) (t : Text) : join [d] (splitEscaped d t) = t := by
  fun_induction splitEscaped d t with
  | case1 => rfl
  | case2 c cs ih => rw [join_consPart, join_consPart, ih]
  | case3 cs hno ih =>
      rw [join_nil_cons _ (splitEscaped_ne_nil d cs), ih, List.singleton_append]
  | case4 c cs hno hc ih => rw [join_consPart, ih]

theorem join_append_cons (separator : Text) (before : List Text) (part : Text) (after : List Text) :
    join separator (before ++ part :: after) =
      before.flatMap (· ++ separator) ++ (part ++ after.flatMap (separator ++ ·)) := by
  induction before with
  | nil => rw [List.nil_append, join_cons, List.flatMap_nil, List.nil_append]
  | cons first before ih =>
      obtain ⟨next, others, hothers⟩ : ∃ next others, before ++ part :: after = next :: others :=
        List.exists_cons_of_ne_nil (by simp)
      rw [List.cons_append, hothers, join_cons_cons, ← hothers, ih, List.flatMap_cons]
      simp only [List.append_assoc]

/-- The part stands behind `left` when the text is split. -/
def PartBehind (d : Char) (t left part : Text) : Prop :=
  ∃ before after, splitEscaped d t = before ++ part :: after ∧ left = before.flatMap (· ++ [d])

namespace PartBehind

variable {d : Char} {t left part : Text}

theorem mem (h : PartBehind d t left part) : part ∈ splitEscaped d t := by
  obtain ⟨before, after, hsplit, -⟩ := h
  rw [hsplit]
  exact List.mem_append_right before List.mem_cons_self

theorem isPrefix (h : PartBehind d t left part) : left ++ part <+: t := by
  obtain ⟨before, after, hsplit, rfl⟩ := h
  refine ⟨after.flatMap ([d] ++ ·), ?_⟩
  conv_rhs => rw [← join_splitEscaped d t, hsplit, join_append_cons]
  rw [List.append_assoc]

end PartBehind

theorem exists_partBehind {d : Char} {t part : Text} (h : part ∈ splitEscaped d t) :
    ∃ left, PartBehind d t left part := by
  obtain ⟨before, after, hsplit⟩ := List.append_of_mem h
  exact ⟨_, before, after, hsplit, rfl⟩

/-- A character that is no delimiter stands in one of the parts that were joined. -/
theorem exists_part_of_join {c d : Char} (hc : c ≠ d) {parts : List Text} {front back : Text}
    (h : join [d] parts = front ++ c :: back) :
    ∃ before part after inner rest, parts = before ++ part :: after ∧
      part = inner ++ c :: rest ∧ front = before.flatMap (· ++ [d]) ++ inner := by
  induction parts generalizing front with
  | nil => simp at h
  | cons part parts ih =>
      cases parts with
      | nil =>
          rw [join_singleton] at h
          exact ⟨[], part, [], front, back, rfl, h, rfl⟩
      | cons next parts =>
          rw [join_cons_cons, List.singleton_append] at h
          rcases List.append_eq_append_iff.1 h with ⟨u, hfront, hrest⟩ | ⟨u, hpart, hrest⟩
          · cases u with
            | nil => exact absurd (List.cons.inj hrest).1.symm hc
            | cons e u =>
                obtain ⟨rfl, hjoined⟩ := List.cons.inj hrest
                obtain ⟨before, found, after, inner, rest, hparts, hfound, hu⟩ := ih hjoined
                refine ⟨part :: before, found, after, inner, rest, by rw [hparts]; rfl, hfound, ?_⟩
                rw [hfront, hu, List.flatMap_cons]
                simp
          · cases u with
            | nil => exact absurd (List.cons.inj hrest).1 hc
            | cons e u =>
                obtain ⟨rfl, -⟩ := List.cons.inj hrest
                exact ⟨[], part, next :: parts, front, u, rfl, hpart, rfl⟩

/-- The character stands in the text behind `front`, where nothing escapes it. -/
def UnescapedBehind (c : Char) (t front : Text) : Prop :=
  escaping false front = false ∧ front ++ [c] <+: t

theorem unescapedBehind_iff {c : Char} {t front : Text} :
    UnescapedBehind c t front ↔ escaping false front = false ∧ ∃ back, t = front ++ c :: back := by
  refine and_congr_right fun _ => exists_congr fun back => ?_
  rw [List.append_assoc, List.singleton_append, eq_comm]

/-- A backslash takes the character behind it out of the text. -/
theorem exists_unescapedBehind_escape {c : Char} (hc : c ≠ '\\') (e : Char) (t : Text) :
    (∃ front, UnescapedBehind c ('\\' :: e :: t) front) ↔ ∃ front, UnescapedBehind c t front := by
  simp only [unescapedBehind_iff]
  constructor
  · rintro ⟨front, hescape, back, hsplit⟩
    rcases front with _ | ⟨f, _ | ⟨g, front⟩⟩
    · exact absurd (List.cons.inj hsplit).1.symm hc
    · obtain ⟨rfl, -⟩ := List.cons.inj hsplit
      simp [escaping] at hescape
    · simp only [List.cons_append, List.cons.injEq] at hsplit
      obtain ⟨rfl, rfl, ht⟩ := hsplit
      exact ⟨front, by simpa [escaping] using hescape, back, ht⟩
  · rintro ⟨front, hescape, back, rfl⟩
    exact ⟨'\\' :: e :: front, by simpa [escaping] using hescape, back, rfl⟩

theorem exists_unescapedBehind_cons {c e : Char} (he : e ≠ '\\') (t : Text) :
    (∃ front, UnescapedBehind c (e :: t) front) ↔ e = c ∨ ∃ front, UnescapedBehind c t front := by
  simp only [unescapedBehind_iff]
  constructor
  · rintro ⟨front, hescape, back, hsplit⟩
    cases front with
    | nil => exact Or.inl (List.cons.inj hsplit).1
    | cons f front =>
        obtain ⟨rfl, ht⟩ := List.cons.inj hsplit
        rw [escaping_cons he] at hescape
        exact Or.inr ⟨front, hescape, back, ht⟩
  · rintro (rfl | ⟨front, hescape, back, rfl⟩)
    · exact ⟨[], rfl, t, rfl⟩
    · exact ⟨e :: front, by rwa [escaping_cons he], back, rfl⟩

theorem not_unescapedBehind_backslash {c : Char} (hc : c ≠ '\\') (front : Text) :
    ¬UnescapedBehind c ['\\'] front := by
  rw [unescapedBehind_iff]
  rintro ⟨-, back, hsplit⟩
  cases front with
  | nil => exact hc (List.cons.inj hsplit).1.symm
  | cons f front => exact absurd (List.cons.inj hsplit).2 (by simp)

theorem hasUnescaped_iff {c : Char} (hc : c ≠ '\\') {t : Text} :
    hasUnescaped c t = true ↔ ∃ front, UnescapedBehind c t front := by
  fun_induction hasUnescaped c t with
  | case1 => simp [unescapedBehind_iff]
  | case2 e cs ih => rw [ih, exists_unescapedBehind_escape hc]
  | case3 e cs hno ih =>
      rw [Bool.or_eq_true, beq_iff_eq, ih]
      by_cases he : e = '\\'
      · subst he
        cases cs with
        | nil =>
            have hnone : ¬∃ front, UnescapedBehind c [] front := by simp [unescapedBehind_iff]
            exact iff_of_false (fun h => h.elim (fun heq => hc heq.symm) hnone)
              fun ⟨front, h⟩ => not_unescapedBehind_backslash hc front h
        | cons d cs => exact absurd rfl (hno d cs rfl)
      · rw [exists_unescapedBehind_cons he]

end Text

end DirectoryAccess
