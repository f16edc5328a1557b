import DirectoryAccess.Distinct
import Mathlib.Data.List.Basic

/-!
# Pushing onto lists without repetition

Pushing leaves members out and changes no order, so that what is pushed is a
sublist; and a list in which no two members are equivalent is left as it is.  Of
each class the member that was pushed first is kept.
-/

namespace DirectoryAccess

namespace Distinct

variable {α : Type} {same : α → α → Bool}

theorem push_sublist (xs : List α) (x : α) : (push same xs x).Sublist (xs ++ [x]) := by
  rw [push]
  split
  · exact List.sublist_append_left xs [x]
  · exact List.Sublist.refl _

theorem pushAll_sublist (xs ys : List α) : (pushAll same xs ys).Sublist (xs ++ ys) := by
  induction ys generalizing xs with
  | nil => simp [pushAll]
  | cons y ys ih =>
      have hrest := ih (push same xs y)
      have hpush : (push same xs y ++ ys).Sublist (xs ++ [y] ++ ys) :=
        (push_sublist xs y).append_right ys
      rw [List.append_assoc, List.singleton_append] at hpush
      exact hrest.trans hpush

theorem ofList_sublist (ys : List α) : (ofList same ys).Sublist ys :=
  pushAll_sublist [] ys

theorem isPrefix_push (xs : List α) (x : α) : xs <+: push same xs x := by
  rw [push]
  split
  · exact List.prefix_refl xs
  · exact List.prefix_append xs [x]

theorem isPrefix_pushAll (xs ys : List α) : xs <+: pushAll same xs ys := by
  induction ys generalizing xs with
  | nil => exact List.prefix_refl xs
  | cons y ys ih => exact (isPrefix_push xs y).trans (ih (push same xs y))

/-- The first member is always kept. -/
theorem exists_ofList_cons (y : α) (ys : List α) : ∃ zs, ofList same (y :: ys) = y :: zs := by
  obtain ⟨zs, hzs⟩ := isPrefix_pushAll (push same [] y) ys
  exact ⟨zs, hzs.symm⟩

theorem ofList_ne_nil {xs : List α} (hne : xs ≠ []) : ofList same xs ≠ [] := by
  obtain ⟨x, rest, rfl⟩ := List.exists_cons_of_ne_nil hne
  obtain ⟨kept, hkept⟩ := @exists_ofList_cons α same x rest
  rw [hkept]
  exact List.cons_ne_nil x kept

/-- No member is equivalent to one before it. -/
def IsDistinct (same : α → α → Bool) (xs : List α) : Prop :=
  xs.Pairwise fun x y => same x y = false

theorem isDistinct_push {xs : List α} (h : IsDistinct same xs) (x : α) :
    IsDistinct same (push same xs x) := by
  unfold push
  split
  · exact h
  · rename_i hnew
    rw [List.any_eq_true] at hnew
    apply List.pairwise_append.2
    refine ⟨h, List.pairwise_singleton _ x, fun y hy z hz => ?_⟩
    rw [List.mem_singleton.1 hz]
    by_contra hsame
    exact hnew ⟨y, hy, by simpa using hsame⟩

theorem isDistinct_pushAll {xs : List α} (h : IsDistinct same xs) (ys : List α) :
    IsDistinct same (pushAll same xs ys) := by
  induction ys generalizing xs with
  | nil => exact h
  | cons y ys ih => exact ih (isDistinct_push h y)

theorem isDistinct_ofList (ys : List α) : IsDistinct same (ofList same ys) :=
  isDistinct_pushAll .nil ys

theorem pushAll_eq_append {xs ys : List α} (h : IsDistinct same (xs ++ ys)) :
    pushAll same xs ys = xs ++ ys := by
  induction ys generalizing xs with
  | nil => simp [pushAll]
  | cons y ys ih =>
      have hpush : push same xs y = xs ++ [y] := by
        have hnew : ¬(xs.any fun x => same x y) = true := by
          rw [List.any_eq_true]
          rintro ⟨x, hx, hsame⟩
          have hdiffers := (List.pairwise_append.1 h).2.2 x hx y (by simp)
          rw [hdiffers] at hsame
          cases hsame
        rw [push, if_neg hnew]
      have hlist : xs ++ y :: ys = push same xs y ++ ys := by
        rw [hpush, List.append_assoc, List.singleton_append]
      rw [hlist] at h ⊢
      exact ih h

theorem ofList_eq_self {xs : List α} (h : IsDistinct same xs) : ofList same xs = xs :=
  pushAll_eq_append h

theorem ofList_ofList (ys : List α) : ofList same (ofList same ys) = ofList same ys :=
  ofList_eq_self (isDistinct_ofList ys)

/-- The members that no equivalent one precedes, be it in the list or among those `before` it. -/
def firstsAfter (same : α → α → Bool) (before : List α) : List α → List α
  | [] => []
  | x :: xs =>
      if before.any fun y => same y x then firstsAfter same (x :: before) xs
      else x :: firstsAfter same (x :: before) xs

/-- The members of a list that no equivalent one precedes. -/
def firsts (same : α → α → Bool) (xs : List α) : List α :=
  firstsAfter same [] xs

section Classes

variable (hsame : Equivalence fun x y => same x y = true)

include hsame

/-- What is pushed is represented afterwards, by itself or by what was there. -/
theorem any_push (xs : List α) (x z : α) :
    (push same xs x).any (fun y => same y z) = (xs.any (fun y => same y z) || same x z) := by
  rw [push]
  split
  · rename_i hold
    obtain ⟨y, hy, hyx⟩ := List.any_eq_true.1 hold
    cases hxz : same x z with
    | false => rw [Bool.or_false]
    | true =>
        rw [Bool.or_true, List.any_eq_true]
        exact ⟨y, hy, hsame.trans hyx hxz⟩
  · rw [List.any_append, List.any_cons, List.any_nil, Bool.or_false]

theorem any_pushAll (xs ys : List α) (z : α) :
    (pushAll same xs ys).any (fun y => same y z) =
      (xs.any (fun y => same y z) || ys.any fun y => same y z) := by
  induction ys generalizing xs with
  | nil => rw [List.any_nil, Bool.or_false, pushAll, List.foldl_nil]
  | cons y ys ih =>
      rw [List.any_cons, ← Bool.or_assoc, ← any_push hsame]
      exact ih (push same xs y)

theorem any_ofList (ys : List α) (z : α) :
    (ofList same ys).any (fun y => same y z) = ys.any fun y => same y z :=
  any_pushAll hsame [] ys z

/--
Pushing compares with the members that were kept.  These stand for all that were
pushed `before`, so that it is as good as a comparison with every one of them.
-/
theorem pushAll_eq_append_firstsAfter {kept before : List α}
    (h : ∀ z, (kept.any fun y => same y z) = before.any fun y => same y z) (xs : List α) :
    pushAll same kept xs = kept ++ firstsAfter same before xs := by
  induction xs generalizing kept before with
  | nil => rw [firstsAfter, List.append_nil, pushAll, List.foldl_nil]
  | cons x xs ih =>
      have hnext (z : α) : ((push same kept x).any fun y => same y z) =
          (x :: before).any fun y => same y z := by
        rw [any_push hsame, h, List.any_cons, Bool.or_comm]
      have hrest : pushAll same kept (x :: xs) =
          push same kept x ++ firstsAfter same (x :: before) xs := ih hnext
      rw [hrest, push, h, firstsAfter]
      split
      · rfl
      · rw [List.append_assoc, List.singleton_append]

theorem ofList_eq_firsts (xs : List α) : ofList same xs = firsts same xs :=
  pushAll_eq_append_firstsAfter hsame (fun _ => rfl) xs

/-- A push changes nothing exactly if an equivalent member was pushed before. -/
theorem push_ofList_eq_self_iff (xs : List α) (x : α) :
    push same (ofList same xs) x = ofList same xs ↔ ∃ y ∈ xs, same y x = true := by
  rw [push, any_ofList hsame, ← List.any_eq_true]
  split
  · rename_i hold
    exact iff_of_true rfl hold
  · rename_i hnew
    refine iff_of_false (fun heq => ?_) hnew
    have hlength := congrArg List.length heq
    rw [List.length_append, List.length_singleton] at hlength
    omega

end Classes

end Distinct

end DirectoryAccess
