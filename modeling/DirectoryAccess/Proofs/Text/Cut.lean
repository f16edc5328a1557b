import DirectoryAccess.Text.Basic
import Mathlib.Data.List.Basic

/-!
# Cutting text

Where the readers that cut a text at a character or take a word off its front
have found what they look for, the text is made of what they return.
-/

namespace DirectoryAccess

namespace Text

theorem cut?_eq_some {d : Char} {t a b : Text} (h : cut? d t = some (a, b)) :
    t = a ++ d :: b ∧ d ∉ a := by
  induction t generalizing a with
  | nil => simp [cut?] at h
  | cons c cs ih =>
      rw [cut?] at h
      split at h
      · rename_i hc
        simp only [Option.some.injEq, Prod.mk.injEq] at h
        obtain ⟨rfl, rfl⟩ := h
        simp [hc]
      · rename_i hc
        obtain ⟨⟨a', b'⟩, hparts, heq⟩ := Option.map_eq_some_iff.1 h
        obtain ⟨rfl, rfl⟩ := Prod.mk.inj heq
        obtain ⟨hcs, hd⟩ := ih hparts
        exact ⟨by rw [hcs, List.cons_append], by simp [hd, Ne.symm hc]⟩

theorem cut?_append_cons {d : Char} {s : Text} (hs : d ∉ s) (t : Text) :
    cut? d (s ++ d :: t) = some (s, t) := by
  induction s with
  | nil => rw [List.nil_append, cut?, if_pos rfl]
  | cons c cs ih =>
      have hc : c ≠ d := fun heq => hs (by simp [heq])
      rw [List.cons_append, cut?, if_neg hc, ih fun hmem => hs (List.mem_cons_of_mem c hmem)]
      rfl

theorem cut?_eq_none_iff {d : Char} {t : Text} : cut? d t = none ↔ d ∉ t := by
  induction t with
  | nil => simp [cut?]
  | cons c cs ih =>
      by_cases hc : c = d
      · simp [cut?, hc]
      · simp [cut?, hc, ih, Ne.symm hc]

theorem stripFold?_eq_some {word t rest : Text} (h : stripFold? word t = some rest) :
    ∃ front, t = front ++ rest ∧ lower front = lower word := by
  fun_induction stripFold? word t with
  | case1 => exact ⟨[], by simpa using h, rfl⟩
  | case2 w ws c cs hc ih =>
      obtain ⟨front, hcs, hfront⟩ := ih h
      exact ⟨c :: front, by rw [hcs, List.cons_append], by simpa [lower, hc] using hfront⟩
  | case3 => cases h
  | case4 => cases h

end Text

end DirectoryAccess
