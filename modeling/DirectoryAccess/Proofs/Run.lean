import Mathlib.Data.List.TakeWhile

/-!
# Runs at the front of a list

A run of members of a class, in front of a list that does not start with one, is
what is taken from the whole.
-/

namespace DirectoryAccess

namespace Run

variable {α : Type} {p : α → Bool} {run rest : List α}

theorem takeWhile_append (hrun : ∀ x ∈ run, p x = true) (hrest : ∀ x ∈ rest.head?, p x = false) :
    (run ++ rest).takeWhile p = run := by
  have hstop : rest.takeWhile p = [] := by
    cases rest with
    | nil => rfl
    | cons x rest => simp [hrest x rfl]
  rw [List.takeWhile_append_of_pos hrun, hstop, List.append_nil]

theorem dropWhile_append (hrun : ∀ x ∈ run, p x = true) (hrest : ∀ x ∈ rest.head?, p x = false) :
    (run ++ rest).dropWhile p = rest := by
  have hstop : rest.dropWhile p = rest := by
    cases rest with
    | nil => rfl
    | cons x rest => simp [hrest x rfl]
  rw [List.dropWhile_append_of_pos hrun, hstop]

theorem head?_dropWhile (p : α → Bool) (xs : List α) :
    ∀ x ∈ (xs.dropWhile p).head?, p x = false := by
  intro x hx
  have hfirst := List.head?_dropWhile_not p xs
  rw [Option.mem_def] at hx
  rwa [hx] at hfirst

end Run

end DirectoryAccess
