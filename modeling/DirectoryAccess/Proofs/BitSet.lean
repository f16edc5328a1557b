import DirectoryAccess.BitSet
import Mathlib.Data.Set.Card

/-!
# Sets of positions under changes

What a set holds after a run of changes is told by the last change of each position, and by
the set at the start where there is none.  Positions, number and emptiness follow what is held.
-/

namespace DirectoryAccess

namespace BitSet

variable {width : Nat}

theorem eq_of_contains {s t : BitSet width} (h : ∀ q, s.contains q = t.contains q) : s = t := by
  obtain ⟨s⟩ := s
  obtain ⟨t⟩ := t
  congr 1
  exact BitVec.eq_of_getLsbD_eq fun q _ => h q

theorem lt_of_contains {s : BitSet width} {q : Nat} (h : s.contains q = true) : q < width := by
  by_contra hle
  rw [contains_eq_false_of_le s (Nat.le_of_not_lt hle)] at h
  cases h

theorem mem_positions {s : BitSet width} {q : Nat} :
    q ∈ s.positions ↔ s.contains q = true := by
  rw [positions, List.mem_filter, List.mem_range]
  exact and_iff_right_of_imp lt_of_contains

theorem pairwise_positions (s : BitSet width) : s.positions.Pairwise (· < ·) :=
  List.pairwise_lt_range.filter s.contains

theorem isEmpty_iff {s : BitSet width} : s.isEmpty = true ↔ ∀ q, s.contains q = false := by
  rw [isEmpty, beq_iff_eq]
  constructor
  · intro hbits q
    rw [contains, hbits]
    exact contains_empty q
  · intro hnone
    have hempty : s = empty := eq_of_contains fun q => by rw [hnone, contains_empty]
    rw [hempty]
    rfl

/-- The set holds the positions with the property, whichever way it is looked at. -/
structure Holds (s : BitSet width) (P : Nat → Prop) : Prop where
  contains_iff : ∀ q, s.contains q = true ↔ P q
  mem_positions_iff : ∀ q, q ∈ s.positions ↔ P q
  ascending : s.positions.Pairwise (· < ·)
  size_eq : s.size = Set.ncard {q | P q}
  isEmpty_iff : s.isEmpty = true ↔ ∀ q, ¬P q

theorem holds_of_contains_iff {s : BitSet width} {P : Nat → Prop}
    (h : ∀ q, s.contains q = true ↔ P q) : s.Holds P where
  contains_iff := h
  mem_positions_iff q := mem_positions.trans (h q)
  ascending := pairwise_positions s
  size_eq := by
    have hset : {q | P q} = (s.positions.toFinset : Set Nat) := by
      ext q
      simp only [Set.mem_ofPred_eq, List.coe_toFinset, mem_positions, h]
    have hnodup : s.positions.Nodup := (pairwise_positions s).imp Nat.ne_of_lt
    rw [hset, Set.ncard_coe_finset, List.toFinset_card_of_nodup hnodup, size]
  isEmpty_iff := by
    rw [BitSet.isEmpty_iff]
    simp only [← h, Bool.not_eq_true]

theorem contains_foldl_insert (positions : List Nat) (s : BitSet width) (q : Nat) :
    (positions.foldl insert s).contains q =
      (s.contains q || (decide (q < width) && decide (q ∈ positions))) := by
  induction positions generalizing s with
  | nil => simp
  | cons p positions ih =>
      rw [List.foldl_cons, ih, contains_insert]
      by_cases hq : q = p
      · subst hq
        cases decide (q < width) <;> simp
      · simp [hq]

/-- Inserting the positions of a set one by one gives the set. -/
theorem foldl_insert_eq {s : BitSet width} {positions : List Nat}
    (h : ∀ q, q ∈ positions ↔ s.contains q = true) : positions.foldl insert empty = s := by
  apply eq_of_contains
  intro q
  rw [contains_foldl_insert, contains_empty, Bool.false_or]
  by_cases hq : q < width
  · simp [hq, h q]
  · simp [hq, contains_eq_false_of_le s (Nat.le_of_not_lt hq)]

theorem mem_of_contains_foldl_insert {positions : List Nat} {q : Nat}
    (h : (positions.foldl insert (empty : BitSet width)).contains q = true) : q ∈ positions := by
  rw [contains_foldl_insert, contains_empty, Bool.false_or, Bool.and_eq_true] at h
  exact of_decide_eq_true h.2

inductive Change where
  | insert (position : Nat)
  | erase (position : Nat)
deriving DecidableEq, Repr

namespace Change

def position : Change → Nat
  | insert p => p
  | erase p => p

def lastOn? (q : Nat) (changes : List Change) : Option Change :=
  (changes.filter fun c => c.position == q).getLast?

@[simp] theorem lastOn?_nil (q : Nat) : lastOn? q [] = none :=
  rfl

theorem lastOn?_concat (q : Nat) (changes : List Change) (c : Change) :
    lastOn? q (changes ++ [c]) = if c.position = q then some c else lastOn? q changes := by
  rw [lastOn?, lastOn?, List.filter_append]
  by_cases hc : c.position = q
  · simp [hc]
  · simp [hc]

theorem mem_of_lastOn? {q : Nat} {changes : List Change} {c : Change}
    (h : lastOn? q changes = some c) : c ∈ changes :=
  (List.mem_filter.1 (List.mem_of_getLast? h)).1

end Change

open Change (lastOn?)

def change (s : BitSet width) : Change → BitSet width
  | .insert p => s.insert p
  | .erase p => s.erase p

def changeAll (s : BitSet width) (changes : List Change) : BitSet width :=
  changes.foldl change s

theorem changeAll_concat (s : BitSet width) (changes : List Change) (c : Change) :
    s.changeAll (changes ++ [c]) = (s.changeAll changes).change c := by
  rw [changeAll, List.foldl_append]
  rfl

theorem change_of_le {s : BitSet width} {c : Change} (h : width ≤ c.position) :
    s.change c = s := by
  cases c with
  | insert p => exact (insert_eq_ite s p).trans (if_neg (Nat.not_lt.2 h))
  | erase p => exact (erase_eq_ite s p).trans (if_neg (Nat.not_lt.2 h))

/-- Changes of positions outside the width can be left out of a run. -/
theorem changeAll_filter_lt (s : BitSet width) (changes : List Change) :
    s.changeAll (changes.filter fun c => c.position < width) = s.changeAll changes := by
  induction changes generalizing s with
  | nil => rfl
  | cons c changes ih =>
      have hrest : s.changeAll (c :: changes) = (s.change c).changeAll changes := rfl
      rw [hrest, List.filter_cons]
      split
      case isTrue => exact ih (s.change c)
      case isFalse h => rw [change_of_le (by simpa using h), ih]

/-- A change decides about its own position, if that is within the width, and about no other. -/
theorem contains_change_iff {s : BitSet width} {c : Change} {q : Nat} :
    (s.change c).contains q = true ↔
      q < width ∧ if c.position = q then c = .insert q else s.contains q = true := by
  cases c with
  | insert p =>
      rw [change, contains_insert]
      by_cases hq : p = q
      · subst hq
        simpa [Change.position] using lt_of_contains
      · simpa [Change.position, hq, Ne.symm hq] using lt_of_contains
  | erase p =>
      rw [change, contains_erase]
      by_cases hq : p = q
      · simp [Change.position, hq]
      · simpa [Change.position, hq, Ne.symm hq] using lt_of_contains

/--
After a run of changes a set holds the positions within its width that were inserted last, and
those that it held at the start and that were not changed.
-/
theorem contains_changeAll_iff {s : BitSet width} {changes : List Change} {q : Nat} :
    (s.changeAll changes).contains q = true ↔
      q < width ∧ (lastOn? q changes = some (.insert q) ∨
        lastOn? q changes = none ∧ s.contains q = true) := by
  induction changes using List.reverseRecOn with
  | nil => simpa [changeAll] using lt_of_contains
  | append_singleton changes c ih =>
      rw [changeAll_concat, contains_change_iff, Change.lastOn?_concat, ih]
      split
      · simp
      · simp

end BitSet

end DirectoryAccess
