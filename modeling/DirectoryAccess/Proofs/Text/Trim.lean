import DirectoryAccess.Text.Basic
import Mathlib.Data.List.TakeWhile

/-!
# Trimmed text

Text without white space at its ends is what trimming leaves, and what trimming
leaves unchanged.
-/

namespace DirectoryAccess

namespace Text

theorem isSeparator_of_isBlank_eq_false {c : Char} (h : isBlank c = false) :
    isSeparator c = false := by
  by_contra hsep
  simp only [isSeparator, Bool.not_eq_false, Bool.or_eq_true, beq_iff_eq] at hsep
  rcases hsep with ((rfl | rfl) | rfl) | rfl <;> cases h

/-- What is skipped at the front of a text is separators. -/
theorem exists_separators_append (t : Text) :
    ∃ gap, t = gap ++ skipSeparators t ∧ ∀ c ∈ gap, isSeparator c = true :=
  ⟨t.takeWhile isSeparator, List.takeWhile_append_dropWhile.symm,
    fun _ hc => List.mem_takeWhile_imp hc⟩

def IsTrimmed (t : Text) : Prop :=
  (∀ c ∈ t.head?, isBlank c = false) ∧ ∀ c ∈ t.getLast?, isBlank c = false

theorem trimStart_eq_self {t : Text} (h : ∀ c ∈ t.head?, isBlank c = false) : trimStart t = t := by
  cases t with
  | nil => rfl
  | cons c cs => rw [trimStart, List.dropWhile_cons_of_neg (by simp [h c rfl])]

theorem trimEnd_eq_self {t : Text} (h : ∀ c ∈ t.getLast?, isBlank c = false) : trimEnd t = t := by
  have hreverse : trimStart t.reverse = t.reverse := trimStart_eq_self (by simpa using h)
  rw [trimStart] at hreverse
  rw [trimEnd, hreverse, List.reverse_reverse]

theorem isTrimmed_of_forall {t : Text} (h : ∀ c ∈ t, isBlank c = false) : t.IsTrimmed :=
  ⟨fun c hc => h c (List.mem_of_mem_head? hc), fun c hc => h c (List.mem_of_mem_getLast? hc)⟩

theorem trim_eq_self {t : Text} (h : IsTrimmed t) : trim t = t := by
  rw [trim, trimStart_eq_self h.1, trimEnd_eq_self h.2]

theorem trimStart_isSuffix (t : Text) : trimStart t <:+ t :=
  List.dropWhile_suffix _

theorem trimEnd_isPrefix (t : Text) : trimEnd t <+: t := by
  rw [← List.reverse_suffix, trimEnd, List.reverse_reverse]
  exact List.dropWhile_suffix _

/-- What is trimmed off the end is white space. -/
theorem exists_trimEnd_append (t : Text) :
    ∃ blanks, t = trimEnd t ++ blanks ∧ ∀ c ∈ blanks, isBlank c = true := by
  refine ⟨(t.reverse.takeWhile isBlank).reverse, ?_, fun c hc => ?_⟩
  · rw [trimEnd, ← List.reverse_append, List.takeWhile_append_dropWhile, List.reverse_reverse]
  · exact List.mem_takeWhile_imp (List.mem_reverse.1 hc)

theorem trim_isInfix (t : Text) : trim t <:+: t :=
  (trimEnd_isPrefix _).isInfix.trans (trimStart_isSuffix t).isInfix

theorem head?_trimStart (t : Text) : ∀ c ∈ (trimStart t).head?, isBlank c = false := by
  intro c hc
  have hfirst := List.head?_dropWhile_not isBlank t
  rw [Option.mem_def, trimStart] at hc
  rwa [hc] at hfirst

theorem getLast?_trimEnd (t : Text) : ∀ c ∈ (trimEnd t).getLast?, isBlank c = false := by
  have hfirst := head?_trimStart t.reverse
  rw [trimStart, ← List.getLast?_reverse] at hfirst
  exact hfirst

theorem isTrimmed_trim (t : Text) : IsTrimmed (trim t) := by
  refine ⟨fun c hc => ?_, getLast?_trimEnd _⟩
  obtain ⟨rest, hrest⟩ := trimEnd_isPrefix (trimStart t)
  refine head?_trimStart t c ?_
  rw [← hrest, List.head?_append]
  rw [Option.mem_def, trim] at hc
  rw [hc]
  rfl

theorem isTrimmed_of_trim_eq {t : Text} (h : trim t = t) : IsTrimmed t := by
  rw [← h]
  exact isTrimmed_trim t

theorem trim_trim (t : Text) : trim (trim t) = trim t :=
  trim_eq_self (isTrimmed_trim t)

theorem trimEnd_append_cons {c : Char} (hc : isBlank c = false) (s t : Text) :
    trimEnd (s ++ c :: t) = s ++ c :: trimEnd t := by
  have hreverse : (s ++ c :: t).reverse = t.reverse ++ c :: s.reverse := by simp
  have hkept : (c :: s.reverse).dropWhile isBlank = c :: s.reverse :=
    List.dropWhile_cons_of_neg (by simp [hc])
  rw [trimEnd, hreverse, List.dropWhile_append, hkept, trimEnd]
  split
  · rename_i hempty
    simp [List.isEmpty_iff.1 hempty]
  · simp

theorem trimStart_append_cons {c : Char} (hc : isBlank c = false) (s t : Text) :
    trimStart (s ++ c :: t) = trimStart s ++ c :: t := by
  have hkept : (c :: t).dropWhile isBlank = c :: t := List.dropWhile_cons_of_neg (by simp [hc])
  rw [trimStart, List.dropWhile_append, hkept, trimStart]
  split
  · rename_i hempty
    rw [List.isEmpty_iff.1 hempty, List.nil_append]
  · rfl

theorem trim_trimStart (t : Text) : trim (trimStart t) = trim t := by
  rw [trim, trimStart_eq_self (head?_trimStart t), ← trim]

theorem trimEnd_concat_blank {c : Char} (hc : isBlank c = true) (t : Text) :
    trimEnd (t ++ [c]) = trimEnd t := by
  simp [trimEnd, hc]

theorem trim_concat_blank {c : Char} (hc : isBlank c = true) {t : Text} (ht : t.IsTrimmed) :
    trim (t ++ [c]) = t := by
  cases t with
  | nil => simp [trim, trimStart, trimEnd, hc]
  | cons d t =>
      rw [trim, trimStart_eq_self (fun e he => ht.1 e (by simpa using he)),
        trimEnd_concat_blank hc, trimEnd_eq_self ht.2]

theorem trim_cons_append {c d : Char} (hc : isBlank c = false) (hd : isBlank d = false)
    (s t : Text) : trim (c :: s ++ d :: t) = c :: s ++ d :: trimEnd t := by
  rw [trim, List.cons_append, trimStart_eq_self (by simpa using hc), ← List.cons_append,
    trimEnd_append_cons hd]

theorem trim_cons_blank {c : Char} (hc : isBlank c = true) (t : Text) : trim (c :: t) = trim t := by
  rw [trim, trimStart, List.dropWhile_cons_of_pos hc, ← trimStart, ← trim]

theorem isBlankText_iff {t : Text} : isBlankText t = true ↔ trim t = [] := by
  rw [isBlankText, List.isEmpty_iff]

theorem isBlankText_eq_false_iff {t : Text} : isBlankText t = false ↔ trim t ≠ [] := by
  rw [← Bool.not_eq_true, isBlankText_iff]

/-- Text between two characters that are not white space is trimmed. -/
theorem isTrimmed_cons_append {c d : Char} (hc : isBlank c = false) (hd : isBlank d = false)
    (t : Text) : IsTrimmed (c :: (t ++ [d])) := by
  refine ⟨by simpa using hc, ?_⟩
  rw [← List.cons_append, List.getLast?_concat]
  simpa using hd

theorem isTrimmed_append_cons {c : Char} (hc : isBlank c = false) {s t : Text}
    (hs : IsTrimmed s) (ht : IsTrimmed t) : IsTrimmed (s ++ c :: t) := by
  constructor
  · intro d hd
    cases s with
    | nil =>
        obtain rfl : c = d := by simpa using hd
        exact hc
    | cons e s => exact hs.1 d hd
  · intro d hd
    rw [List.getLast?_append, List.getLast?_cons, Option.some_or] at hd
    obtain rfl : t.getLast?.getD c = d := by simpa using hd
    cases hlast : t.getLast? with
    | none => exact hc
    | some e => exact ht.2 e hlast

theorem isTrimmed_append_append {s t : Text} (hs : s.IsTrimmed) (hsne : s ≠ [])
    (ht : t.IsTrimmed) (htne : t ≠ []) {m : Text} : (s ++ (m ++ t)).IsTrimmed := by
  obtain ⟨c, s, rfl⟩ := List.exists_cons_of_ne_nil hsne
  refine ⟨hs.1, fun d hd => ht.2 d ?_⟩
  rw [List.getLast?_append, List.getLast?_append] at hd
  cases hlast : t.getLast? with
  | none => exact absurd (List.getLast?_eq_none_iff.1 hlast) htne
  | some e => simpa [hlast] using hd

/-- What is trimmed off a text is white space. -/
theorem exists_append_trim (t : Text) : ∃ a b, t = a ++ (trim t ++ b) ∧
    (∀ c ∈ a, isBlank c = true) ∧ ∀ c ∈ b, isBlank c = true := by
  obtain ⟨b, hsplit, hb⟩ := exists_trimEnd_append (trimStart t)
  refine ⟨t.takeWhile isBlank, b, ?_, fun c hc => List.mem_takeWhile_imp hc, hb⟩
  rw [trim, ← hsplit, trimStart, List.takeWhile_append_dropWhile]

theorem trim_blanks_append {blanks : Text} (h : ∀ c ∈ blanks, isBlank c = true) (t : Text) :
    trim (blanks ++ t) = trim t := by
  induction blanks with
  | nil => rfl
  | cons c blanks ih =>
      rw [List.cons_append, trim_cons_blank (h c (by simp))]
      exact ih fun d hd => h d (List.mem_cons_of_mem c hd)

theorem isBlankText_iff_forall {t : Text} :
    isBlankText t = true ↔ ∀ c ∈ t, isBlank c = true := by
  rw [isBlankText_iff]
  constructor
  · intro h c hc
    by_contra hblank
    obtain ⟨s, u, rfl⟩ := List.append_of_mem hc
    rw [Bool.not_eq_true] at hblank
    rw [trim, trimStart_append_cons hblank, trimEnd_append_cons hblank] at h
    simp at h
  · intro h
    rw [trim, trimStart, List.dropWhile_eq_nil_iff.2 h]
    rfl

theorem isBlankText_of_isInfix {s t : Text} (h : isBlankText t = true) (hs : s <:+: t) :
    isBlankText s = true := by
  rw [isBlankText_iff_forall] at h ⊢
  exact fun c hc => h c (hs.subset hc)

/-- Text that is not blank holds a character that trimming does not pass. -/
theorem exists_eq_append_cons_of_solid {t : Text} (h : isBlankText t = false) :
    ∃ s c u, t = s ++ c :: u ∧ isBlank c = false := by
  rw [← Bool.not_eq_true, isBlankText_iff_forall] at h
  simp only [not_forall, Bool.not_eq_true] at h
  obtain ⟨c, hc, hsolid⟩ := h
  obtain ⟨s, u, rfl⟩ := List.append_of_mem hc
  exact ⟨s, c, u, rfl, hsolid⟩

theorem isBlankText_append (s t : Text) :
    isBlankText (s ++ t) = (isBlankText s && isBlankText t) := by
  rw [Bool.eq_iff_iff, Bool.and_eq_true]
  simp only [isBlankText_iff_forall, List.mem_append, or_imp, forall_and]

theorem isBlankText_flatten (ts : List Text) :
    isBlankText ts.flatten = ts.all isBlankText := by
  rw [Bool.eq_iff_iff, isBlankText_iff_forall, List.all_eq_true]
  simp only [isBlankText_iff_forall, List.mem_flatten]
  exact ⟨fun h t ht c hc => h c ⟨t, ht, hc⟩, fun h c ⟨t, ht, hc⟩ => h t ht c hc⟩

theorem trimStart_eq_nil_iff {t : Text} : trimStart t = [] ↔ isBlankText t = true := by
  rw [trimStart, List.dropWhile_eq_nil_iff, isBlankText_iff_forall]

theorem length_le_byteLength (t : Text) : t.length ≤ byteLength t := by
  induction t with
  | nil => exact Nat.le_refl 0
  | cons c cs ih =>
      have hsize := Char.utf8Size_pos c
      rw [List.length_cons, byteLength]
      omega

theorem trimStart_append (s t : Text) :
    trimStart (s ++ t) = if trimStart s = [] then trimStart t else trimStart s ++ t := by
  rw [trimStart, List.dropWhile_append, trimStart, trimStart]
  simp only [List.isEmpty_iff]

theorem trimEnd_append_blanks {blanks : Text} (h : isBlankText blanks = true) (t : Text) :
    trimEnd (t ++ blanks) = trimEnd t := by
  rw [isBlankText_iff_forall] at h
  induction blanks generalizing t with
  | nil => rw [List.append_nil]
  | cons c blanks ih =>
      rw [List.append_cons, ih fun d hd => h d (List.mem_cons_of_mem c hd),
        trimEnd_concat_blank (h c (by simp))]

theorem trim_append_blanks {blanks : Text} (h : isBlankText blanks = true) (t : Text) :
    trim (t ++ blanks) = trim t := by
  rw [trim, trim, trimStart_append]
  split
  · rename_i hnil
    rw [hnil, trimStart_eq_nil_iff.2 h]
  · exact trimEnd_append_blanks h _

theorem trimEnd_append_of_solid {t : Text} (h : isBlankText t = false) (s : Text) :
    trimEnd (s ++ t) = s ++ trimEnd t := by
  obtain ⟨u, c, v, rfl, hsolid⟩ := exists_eq_append_cons_of_solid h
  rw [← List.append_assoc, trimEnd_append_cons hsolid, trimEnd_append_cons hsolid,
    List.append_assoc]

theorem length_trimEnd_append_le (s t : Text) :
    (trimEnd (s ++ t)).length ≤ s.length + (trimEnd t).length := by
  cases hblank : isBlankText t with
  | true =>
      rw [trimEnd_append_blanks hblank]
      exact Nat.le_add_right_of_le (trimEnd_isPrefix s).length_le
  | false => rw [trimEnd_append_of_solid hblank, List.length_append]

/-- White space may be taken off the ends of a text in either order. -/
theorem trimStart_trimEnd (t : Text) : trimStart (trimEnd t) = trim t := by
  cases hblank : isBlankText t with
  | true =>
      have hend : trimEnd t = [] := trimEnd_append_blanks hblank []
      rw [hend, isBlankText_iff.1 hblank]
      rfl
  | false =>
      obtain ⟨s, c, u, rfl, hsolid⟩ := exists_eq_append_cons_of_solid hblank
      rw [trim, trimEnd_append_cons hsolid, trimStart_append_cons hsolid,
        trimStart_append_cons hsolid, trimEnd_append_cons hsolid]

theorem trimEnd_ne_nil {t : Text} (h : isBlankText t = false) : trimEnd t ≠ [] := by
  intro hnil
  rw [isBlankText_eq_false_iff, ← trimStart_trimEnd, hnil] at h
  exact h rfl

theorem dropWhile_sublist_dropWhile {p : Char → Bool} {s t : Text} (h : s.Sublist t) :
    (s.dropWhile p).Sublist (t.dropWhile p) := by
  induction h with
  | slnil => exact .slnil
  | @cons s t c h ih =>
      by_cases hc : p c = true
      · rw [List.dropWhile_cons_of_pos hc]
        exact ih
      · rw [List.dropWhile_cons_of_neg hc]
        exact (List.dropWhile_sublist p).trans (h.cons c)
  | @cons_cons s t c h ih =>
      by_cases hc : p c = true
      · rw [List.dropWhile_cons_of_pos hc, List.dropWhile_cons_of_pos hc]
        exact ih
      · rw [List.dropWhile_cons_of_neg hc, List.dropWhile_cons_of_neg hc]
        exact h.cons_cons c

theorem trimEnd_sublist_trimEnd {s t : Text} (h : s.Sublist t) : (trimEnd s).Sublist (trimEnd t) :=
  (dropWhile_sublist_dropWhile h.reverse).reverse

theorem prefix_append_cases {s t u : Text} (h : s <+: t ++ u) :
    s <+: t ∨ ∃ v, v <+: u ∧ s = t ++ v := by
  rcases List.prefix_or_prefix_of_prefix h (List.prefix_append t u) with hs | ⟨v, rfl⟩
  · exact .inl hs
  · exact .inr ⟨v, (List.prefix_append_right_inj t).1 h, rfl⟩

/-- A front of a text without white space stays one if white space is taken out. -/
theorem prefix_append_of_solid {s t blanks u : Text} (hs : ∀ c ∈ s, isBlank c = false)
    (hblank : isBlankText blanks = true) (h : s <+: t ++ blanks ++ u) : s <+: t ++ u := by
  rw [List.append_assoc] at h
  rcases prefix_append_cases h with hfront | ⟨v, hv, rfl⟩
  · exact hfront.trans (List.prefix_append t u)
  · rw [List.prefix_append_right_inj]
    cases blanks with
    | nil => exact hv
    | cons d blanks =>
        cases v with
        | nil => exact List.nil_prefix
        | cons c v =>
            obtain ⟨rfl, -⟩ := List.cons_prefix_cons.1 hv
            have hd := isBlankText_iff_forall.1 hblank c List.mem_cons_self
            rw [hs c (by simp)] at hd
            cases hd

theorem stripLast?_eq_some_iff {c : Char} {t front : Text} :
    stripLast? c t = some front ↔ t = front ++ [c] := by
  unfold stripLast?
  split
  · rename_i hreverse
    rw [List.reverse_eq_nil_iff] at hreverse
    simp [hreverse]
  · rename_i d rest hreverse
    rw [← List.reverse_reverse t, hreverse, List.reverse_cons]
    by_cases hd : d = c
    · simp [hd]
    · simp [hd]

end Text

end DirectoryAccess
