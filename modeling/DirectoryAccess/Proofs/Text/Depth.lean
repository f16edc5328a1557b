import DirectoryAccess.Proofs.Text.Parts

/-!
# Splitting outside parentheses

The splitters that count parentheses cut a text where the depth is zero and a
separator stands.  A part that they return holds no such place, and a text
without such a place is taken whole, so that parts which are written out again
are found again as long as each but the last leaves no parenthesis open.
-/

namespace DirectoryAccess

namespace Text

/-- The depth of parentheses behind a text that starts at the given depth. -/
def depthBehind (depth : Nat) (t : Text) : Nat :=
  t.foldl (fun depth c => depthAfter c depth) depth

@[simp] theorem depthBehind_nil (depth : Nat) : depthBehind depth [] = depth :=
  rfl

@[simp] theorem depthBehind_cons (depth : Nat) (c : Char) (t : Text) :
    depthBehind depth (c :: t) = depthBehind (depthAfter c depth) t :=
  rfl

theorem depthBehind_append (depth : Nat) (s t : Text) :
    depthBehind depth (s ++ t) = depthBehind (depthBehind depth s) t :=
  List.foldl_append

theorem depthAfter_mono {depth depth' : Nat} (h : depth ≤ depth') (c : Char) :
    depthAfter c depth ≤ depthAfter c depth' := by
  unfold depthAfter
  split
  · omega
  · split <;> omega

theorem depthBehind_mono {depth depth' : Nat} (h : depth ≤ depth') (t : Text) :
    depthBehind depth t ≤ depthBehind depth' t := by
  induction t generalizing depth depth' with
  | nil => exact h
  | cons c t ih => exact ih (depthAfter_mono h c)

/-- One more open parenthesis in front leaves at most one more open behind. -/
theorem depthBehind_succ_le (depth : Nat) (t : Text) :
    depthBehind (depth + 1) t ≤ depthBehind depth t + 1 := by
  induction t generalizing depth with
  | nil => exact Nat.le_refl _
  | cons c t ih =>
      have hafter : depthAfter c (depth + 1) ≤ depthAfter c depth + 1 := by
        unfold depthAfter
        split
        · omega
        · split <;> omega
      exact Nat.le_trans (depthBehind_mono hafter t) (ih _)

theorem depthAfter_eq_self {c : Char} (hopen : c ≠ '(') (hclose : c ≠ ')') (depth : Nat) :
    depthAfter c depth = depth := by
  rw [depthAfter, if_neg hopen, if_neg hclose]

theorem depthBehind_of_forall {t : Text} (h : ∀ c ∈ t, c ≠ '(' ∧ c ≠ ')') (depth : Nat) :
    depthBehind depth t = depth := by
  induction t with
  | nil => rfl
  | cons c t ih =>
      obtain ⟨hopen, hclose⟩ := h c (by simp)
      rw [depthBehind_cons, depthAfter_eq_self hopen hclose]
      exact ih fun d hd => h d (List.mem_cons_of_mem c hd)

theorem not_paren_of_isBlank {c : Char} (h : isBlank c = true) : c ≠ '(' ∧ c ≠ ')' := by
  constructor
  · rintro rfl
    cases h
  · rintro rfl
    cases h

theorem depthBehind_of_isBlank {blanks : Text} (h : ∀ c ∈ blanks, isBlank c = true) (depth : Nat) :
    depthBehind depth blanks = depth :=
  depthBehind_of_forall (fun c hc => not_paren_of_isBlank (h c hc)) depth

theorem depthBehind_trim (depth : Nat) (t : Text) :
    depthBehind depth (trim t) = depthBehind depth t := by
  obtain ⟨a, b, hsplit, ha, hb⟩ := exists_append_trim t
  conv_rhs => rw [hsplit, depthBehind_append, depthBehind_of_isBlank ha, depthBehind_append,
    depthBehind_of_isBlank hb]

/--
A splitter cuts where the depth is zero and `cut?` finds a separator, and goes
on with what `cut?` says to follow the separator.
-/
structure IsSplitter (cut? : Text → Option Text) (split : Nat → Text → List Text) : Prop where
  nil (depth : Nat) : split depth [] = [[]]
  cut {c : Char} {t rest : Text} (h : cut? (c :: t) = some rest) :
    split 0 (c :: t) = [] :: split 0 rest
  keep {depth : Nat} {c : Char} {t : Text} (h : depth = 0 → cut? (c :: t) = none) :
    split depth (c :: t) = consPart c (split (depthAfter c depth) t)

/-- No separator stands outside parentheses in `t`, which starts at a depth, in front of `rest`. -/
def Uncut (cut? : Text → Option Text) (depth : Nat) (t rest : Text) : Prop :=
  match t with
  | [] => True
  | c :: cs =>
      (depth = 0 → cut? (c :: (cs ++ rest)) = none) ∧ Uncut cut? (depthAfter c depth) cs rest

variable {cut? : Text → Option Text} {split : Nat → Text → List Text}

theorem Uncut.append_iff {depth : Nat} {s t rest : Text} :
    Uncut cut? depth (s ++ t) rest ↔
      Uncut cut? depth s (t ++ rest) ∧ Uncut cut? (depthBehind depth s) t rest := by
  induction s generalizing depth with
  | nil => simp [Uncut]
  | cons c s ih => simp only [List.cons_append, Uncut, ih, List.append_assoc, and_assoc,
      depthBehind_cons]

theorem Uncut.trim {t rest : Text} {depth : Nat} (h : Uncut cut? depth t rest) :
    ∃ rest', Uncut cut? depth (Text.trim t) rest' := by
  obtain ⟨a, b, hsplit, ha, -⟩ := exists_append_trim t
  rw [hsplit, append_iff, depthBehind_of_isBlank ha, append_iff] at h
  exact ⟨b ++ rest, h.2.1⟩

theorem foldr_consPart (s part : Text) (parts : List Text) :
    s.foldr consPart (part :: parts) = (s ++ part) :: parts := by
  induction s with
  | nil => rfl
  | cons c s ih => rw [List.foldr_cons, ih, consPart, List.cons_append]

namespace IsSplitter

variable (hsplit : IsSplitter cut? split) {depth : Nat} {t rest : Text}

include hsplit

theorem ne_nil (depth : Nat) (t : Text) : split depth t ≠ [] := by
  cases t with
  | nil => simp [hsplit.nil]
  | cons c t =>
      by_cases hkeep : depth = 0 → cut? (c :: t) = none
      · rw [hsplit.keep hkeep]
        exact consPart_ne_nil c _
      · rw [Classical.not_imp] at hkeep
        obtain ⟨rfl, hcut⟩ := hkeep
        obtain ⟨rest, hrest⟩ := Option.ne_none_iff_exists'.1 hcut
        simp [hsplit.cut hrest]

/-- What holds no separator outside parentheses is kept whole. -/
theorem append (h : Uncut cut? depth t rest) :
    split depth (t ++ rest) = t.foldr consPart (split (depthBehind depth t) rest) := by
  induction t generalizing depth with
  | nil => rfl
  | cons c t ih =>
      obtain ⟨hhere, hbehind⟩ := h
      rw [List.cons_append, hsplit.keep hhere, ih hbehind, List.foldr_cons, depthBehind_cons]

theorem whole (h : Uncut cut? depth t []) : split depth t = [t] := by
  have happend := hsplit.append h
  rw [hsplit.nil, foldr_consPart, List.append_nil] at happend
  exact happend

theorem append_cut {c : Char} {after : Text} (h : Uncut cut? depth t (c :: rest))
    (hdepth : depthBehind depth t = 0) (hcut : cut? (c :: rest) = some after) :
    split depth (t ++ c :: rest) = t :: split 0 after := by
  rw [hsplit.append h, hdepth, hsplit.cut hcut, foldr_consPart, List.append_nil]

/-- The first part holds no separator; either it is all, or it leaves nothing open. -/
theorem exists_of_cons {part : Text} {parts : List Text} (h : split depth t = part :: parts) :
    ∃ rest, t = part ++ rest ∧ Uncut cut? depth part rest ∧
      ((rest = [] ∧ parts = []) ∨ (depthBehind depth part = 0 ∧ ∃ after,
        cut? rest = some after ∧ split 0 after = parts)) := by
  induction t generalizing depth part with
  | nil =>
      rw [hsplit.nil] at h
      obtain ⟨rfl, rfl⟩ := List.cons.inj h
      exact ⟨[], rfl, trivial, Or.inl ⟨rfl, rfl⟩⟩
  | cons c t ih =>
      by_cases hkeep : depth = 0 → cut? (c :: t) = none
      · obtain ⟨q, qs, hqs⟩ :=
          List.exists_cons_of_ne_nil (hsplit.ne_nil (depthAfter c depth) t)
        rw [hsplit.keep hkeep, hqs] at h
        obtain ⟨rfl, rfl⟩ := List.cons.inj h
        obtain ⟨rest, rfl, huncut, hend⟩ := ih hqs
        exact ⟨rest, rfl, ⟨hkeep, huncut⟩, hend⟩
      · rw [Classical.not_imp] at hkeep
        obtain ⟨rfl, hcut⟩ := hkeep
        obtain ⟨after, hafter⟩ := Option.ne_none_iff_exists'.1 hcut
        rw [hsplit.cut hafter] at h
        obtain ⟨rfl, rfl⟩ := List.cons.inj h
        exact ⟨c :: t, rfl, trivial, Or.inr ⟨rfl, after, hafter, rfl⟩⟩

/-- In no part does a separator stand outside parentheses. -/
theorem uncut_of_mem {part : Text} (h : part ∈ split 0 t) : ∃ rest, Uncut cut? 0 part rest := by
  obtain ⟨parts, hparts⟩ : ∃ parts, split 0 t = parts := ⟨_, rfl⟩
  rw [hparts] at h
  induction parts generalizing t with
  | nil => cases h
  | cons first parts ih =>
      obtain ⟨rest, rfl, huncut, hend⟩ := hsplit.exists_of_cons hparts
      rcases List.mem_cons.1 h with rfl | h
      · exact ⟨rest, huncut⟩
      · rcases hend with ⟨-, rfl⟩ | ⟨-, after, -, hafter⟩
        · cases h
        · exact ih h hafter

end IsSplitter

/-- Text in which no separator stands outside parentheses, at whatever depth and in front of what. -/
def IsSealed (cut? : Text → Option Text) (t : Text) : Prop :=
  ∀ depth rest, Uncut cut? depth t rest

theorem IsSealed.append {s t : Text} (hs : IsSealed cut? s) (ht : IsSealed cut? t) :
    IsSealed cut? (s ++ t) :=
  fun depth rest => Uncut.append_iff.2 ⟨hs depth (t ++ rest), ht (depthBehind depth s) rest⟩

theorem IsSealed.of_forall {t : Text} (h : ∀ c ∈ t, ∀ rest, cut? (c :: rest) = none) :
    IsSealed cut? t := by
  intro depth rest
  induction t generalizing depth with
  | nil => exact trivial
  | cons c t ih =>
      have hhere := h c (by simp) (t ++ rest)
      exact ⟨fun _ => hhere, ih (fun d hd => h d (List.mem_cons_of_mem c hd)) _⟩

theorem IsSealed.join {separator : Text} (hseparator : IsSealed cut? separator)
    {parts : List Text} (h : ∀ p ∈ parts, IsSealed cut? p) :
    IsSealed cut? (Text.join separator parts) :=
  join_induction (fun _ _ => trivial) (fun _ _ hs ht => hs.append (hseparator.append ht)) h

theorem strip?_append (word rest : Text) : strip? word (word ++ rest) = some rest := by
  induction word with
  | nil => rfl
  | cons w word ih => rw [List.cons_append, strip?, if_pos rfl, ih]

theorem isSome_strip?_iff {word t : Text} : (strip? word t).isSome = true ↔ word <+: t := by
  constructor
  · intro h
    obtain ⟨rest, hrest⟩ := Option.isSome_iff_exists.1 h
    exact ⟨rest, (strip?_eq_some hrest).symm⟩
  · rintro ⟨rest, rfl⟩
    rw [strip?_append]
    rfl

/-- A word that a text starts with ends in front of a character that is not in the word. -/
theorem isPrefix_of_isPrefix_append_cons {c : Char} {word s t : Text} (hc : c ∉ word)
    (h : word <+: s ++ c :: t) : word <+: s := by
  rcases List.prefix_or_prefix_of_prefix h (List.prefix_append s (c :: t)) with hs | ⟨u, rfl⟩
  · exact hs
  · cases u with
    | nil => simp
    | cons d u =>
        rw [List.prefix_append_right_inj] at h
        obtain ⟨rfl, -⟩ := List.cons_prefix_cons.1 h
        exact absurd (by simp) hc

theorem splitAtDepth_isSplitter {word : Text} (hne : word ≠ []) :
    IsSplitter (strip? word) (splitAtDepth word) where
  nil depth := by rw [splitAtDepth]
  cut {c t rest} h := by
    have hsplit := strip?_eq_some h
    obtain ⟨w, ws, rfl⟩ := List.exists_cons_of_ne_nil hne
    obtain ⟨rfl, rfl⟩ := List.cons.inj hsplit
    rw [splitAtDepth, h]
    simp
  keep {depth c t} h := by
    have hnot : (decide (depth = 0) && (strip? word (c :: t)).isSome) = false := by
      by_cases hdepth : depth = 0
      · rw [h hdepth]
        simp
      · simp [hdepth]
    rw [splitAtDepth, hnot]
    rfl

end Text

end DirectoryAccess
