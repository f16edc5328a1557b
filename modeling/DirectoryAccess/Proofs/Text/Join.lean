import DirectoryAccess.Proofs.Text.Escape

/-!
# Joined text

What holds of a text that is written part by part with a separator between the
parts, from what holds of the parts.
-/

namespace DirectoryAccess

namespace Text

/-- What a check of every character finds holds of each of them. -/
theorem forall_mem_of_all {p : Char → Prop} [DecidablePred p] {t : Text}
    (h : t.all (fun c => decide (p c)) = true) : ∀ c ∈ t, p c := by
  simpa using h

@[simp] theorem join_nil (separator : Text) : join separator [] = [] :=
  rfl

theorem join_cons (separator part : Text) (parts : List Text) :
    join separator (part :: parts) = part ++ parts.flatMap (separator ++ ·) := by
  induction parts generalizing part with
  | nil => simp [join]
  | cons next parts ih =>
      have hnext := ih next
      rw [join] at hnext
      rw [join, List.intercalate_cons_cons, hnext, List.flatMap_cons]
      simp only [List.append_assoc]

theorem join_singleton (separator part : Text) : join separator [part] = part := by
  rw [join_cons, List.flatMap_nil, List.append_nil]

theorem join_cons_cons (separator part next : Text) (parts : List Text) :
    join separator (part :: next :: parts) =
      part ++ (separator ++ join separator (next :: parts)) := by
  rw [join_cons, join_cons, List.flatMap_cons, List.append_assoc]

/-- What holds of two texts with the separator between them holds of all parts joined by it. -/
theorem join_induction {P : Text → Prop} {separator : Text} (nil : P [])
    (append : ∀ s t, P s → P t → P (s ++ (separator ++ t))) {parts : List Text}
    (hparts : ∀ p ∈ parts, P p) : P (join separator parts) := by
  induction parts with
  | nil => exact nil
  | cons part parts ih =>
      have hpart := hparts part (by simp)
      cases parts with
      | nil => rwa [join_singleton]
      | cons next parts =>
          rw [join_cons_cons]
          exact append part _ hpart (ih fun p hp => hparts p (List.mem_cons_of_mem part hp))

theorem mem_join {separator : Text} {parts : List Text} {c : Char}
    (h : c ∈ join separator parts) : c ∈ separator ∨ ∃ p ∈ parts, c ∈ p := by
  cases parts with
  | nil => cases h
  | cons part parts =>
      rw [join_cons, List.mem_append, List.mem_flatMap] at h
      rcases h with h | ⟨p, hp, h⟩
      · exact Or.inr ⟨part, by simp, h⟩
      · rcases List.mem_append.1 h with h | h
        · exact Or.inl h
        · exact Or.inr ⟨p, List.mem_cons_of_mem part hp, h⟩

end Text

end DirectoryAccess
