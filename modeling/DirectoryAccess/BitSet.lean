/-!
# Sets of bit positions

A finite set of positions below a fixed width, kept as the bits of one word.
Positions outside the width are never in the set: inserting or erasing one
changes nothing, since a bit that is shifted out of the word is gone.
-/

namespace DirectoryAccess

/-- A set of positions below `width`. -/
structure BitSet (width : Nat) where
  bits : BitVec width
deriving DecidableEq, Repr

namespace BitSet

variable {width : Nat}

def empty : BitSet width :=
  ⟨BitVec.ofNat width 0⟩

instance : Inhabited (BitSet width) :=
  ⟨empty⟩

/-- The set whose word is the lowest bits of `n`. -/
def ofNat (n : Nat) : BitSet width :=
  ⟨BitVec.ofNat width n⟩

def toNat (s : BitSet width) : Nat :=
  s.bits.toNat

def contains (s : BitSet width) (position : Nat) : Bool :=
  s.bits.getLsbD position

def insert (s : BitSet width) (position : Nat) : BitSet width :=
  ⟨s.bits ||| BitVec.twoPow width position⟩

def erase (s : BitSet width) (position : Nat) : BitSet width :=
  ⟨s.bits &&& ~~~BitVec.twoPow width position⟩

def union (s t : BitSet width) : BitSet width :=
  ⟨s.bits ||| t.bits⟩

def isEmpty (s : BitSet width) : Bool :=
  s.bits == BitVec.ofNat width 0

/-- The positions in ascending order. -/
def positions (s : BitSet width) : List Nat :=
  (List.range width).filter s.contains

def size (s : BitSet width) : Nat :=
  s.positions.length

@[simp] theorem contains_empty (position : Nat) :
    (empty : BitSet width).contains position = false := by
  simp [contains, empty]

theorem contains_eq_false_of_le
    (s : BitSet width) {position : Nat} (h : width ≤ position) :
    s.contains position = false := by
  simp [contains, BitVec.getLsbD_of_ge _ _ h]

theorem contains_insert (s : BitSet width) (p q : Nat) :
    (s.insert p).contains q = (s.contains q || (decide (q < width) && decide (q = p))) := by
  simp only [contains, insert, BitVec.getLsbD_or, BitVec.getLsbD_twoPow]
  by_cases hp : p = q
  · simp [hp]
  · simp [hp, Ne.symm hp]

theorem contains_erase (s : BitSet width) (p q : Nat) :
    (s.erase p).contains q = (s.contains q && !decide (q = p)) := by
  simp only [contains, erase, BitVec.getLsbD_and, BitVec.getLsbD_not, BitVec.getLsbD_twoPow]
  by_cases hq : q < width
  · by_cases hp : p = q
    · simp [hp, hq]
    · simp [hp, hq, Ne.symm hp]
  · simp [BitVec.getLsbD_of_ge _ _ (Nat.le_of_not_lt hq)]

theorem contains_eq_and (s : BitSet width) (p : Nat) :
    s.contains p =
      (decide (p < width) && s.bits &&& BitVec.ofNat width 1 <<< p != BitVec.ofNat width 0) := by
  rw [← BitVec.twoPow_eq, BitVec.and_twoPow]
  by_cases h : p < width
  · have hbit : BitVec.twoPow width p ≠ BitVec.ofNat width 0 := by
      intro hzero
      have hp := congrArg (fun word => word.getLsbD p) hzero
      simp [h] at hp
    rw [contains]
    cases s.bits.getLsbD p <;> simp [h, hbit]
  · simp [contains_eq_false_of_le s (Nat.le_of_not_lt h), h]

/-- Adding a position sets its bit, if the word has it. -/
theorem insert_eq_ite (s : BitSet width) (p : Nat) :
    s.insert p = if p < width then ⟨s.bits ||| BitVec.ofNat width 1 <<< p⟩ else s := by
  rw [insert, BitVec.twoPow_eq]
  split
  case isTrue => rfl
  case isFalse h => rw [BitVec.shiftLeft_eq_zero (Nat.le_of_not_lt h), BitVec.or_zero]

/-- Removing a position clears its bit, if the word has it. -/
theorem erase_eq_ite (s : BitSet width) (p : Nat) :
    s.erase p = if p < width then ⟨s.bits &&& ~~~(BitVec.ofNat width 1 <<< p)⟩ else s := by
  rw [erase, BitVec.twoPow_eq]
  split
  case isTrue => rfl
  case isFalse h =>
    rw [BitVec.shiftLeft_eq_zero (Nat.le_of_not_lt h), BitVec.not_zero, BitVec.and_allOnes]

theorem contains_union (s t : BitSet width) (q : Nat) :
    (s.union t).contains q = (s.contains q || t.contains q) := by
  simp [contains, union]

end BitSet

end DirectoryAccess
