import DirectoryAccess.Proofs.BitSet
import DirectoryAccess.Proofs.Outcome.Failing
import DirectoryAccess.Proofs.Value.Binding
import DirectoryAccess.Proofs.Value.Reading

/-!
# Levels under changes and from texts

Inserting passes over levels above the highest and erasing passes over none, so that a set
that starts without levels stays within the range.  A text gives the set of its digits.
-/

namespace DirectoryAccess

open BitSet (Change)
open BitSet.Change (lastOn?)

namespace InheritanceLevels

def change (l : InheritanceLevels) : Change → InheritanceLevels
  | .insert level => l.insert level
  | .erase level => l.erase level

def changeAll (l : InheritanceLevels) (changes : List Change) : InheritanceLevels :=
  changes.foldl change l

/-- Holds for the changes that are carried out: not for inserting a level above the highest. -/
def isCarriedOut : Change → Bool
  | .insert level => level ≤ highest
  | .erase _ => true

theorem set_change (l : InheritanceLevels) (c : Change) :
    (l.change c).set = if isCarriedOut c then l.set.change c else l.set := by
  cases c with
  | insert level =>
      simp only [change, insert, isCarriedOut, decide_eq_true_eq]
      split <;> rfl
  | erase level => rfl

theorem set_changeAll (l : InheritanceLevels) (changes : List Change) :
    (l.changeAll changes).set = l.set.changeAll (changes.filter isCarriedOut) := by
  induction changes generalizing l with
  | nil => rfl
  | cons c changes ih =>
      have hrest : (l.changeAll (c :: changes)).set =
          (l.change c).set.changeAll (changes.filter isCarriedOut) := ih (l.change c)
      rw [hrest, set_change, List.filter_cons]
      split <;> rfl

theorem lastOn?_filter_isCarriedOut {q : Nat} (hq : q ≤ highest) (changes : List Change) :
    lastOn? q (changes.filter isCarriedOut) = lastOn? q changes := by
  have hcarried : ∀ c ∈ changes,
      ((c.position == q) && isCarriedOut c) = (c.position == q) := by
    intro c _
    cases c with
    | insert level =>
        by_cases hlevel : level = q
        · simp [isCarriedOut, hlevel, hq]
        · simp [Change.position, hlevel]
    | erase level => exact Bool.and_true _
  rw [lastOn?, lastOn?, List.filter_filter, List.filter_congr hcarried]

/-- After changes to no level, the levels are those up to the highest that were inserted last. -/
theorem contains_changeAll_empty_iff {changes : List Change} {q : Nat} :
    (empty.changeAll changes).set.contains q = true ↔
      q ≤ highest ∧ lastOn? q changes = some (.insert q) := by
  have hempty : empty.set.contains q = false := BitSet.contains_empty q
  rw [set_changeAll, BitSet.contains_changeAll_iff, hempty]
  simp only [Bool.false_eq_true, and_false, or_false]
  constructor
  · rintro ⟨-, hlast⟩
    have hmem := Change.mem_of_lastOn? hlast
    have hq : q ≤ highest := of_decide_eq_true (List.mem_filter.1 hmem).2
    exact ⟨hq, (lastOn?_filter_isCarriedOut hq changes).symm.trans hlast⟩
  · rintro ⟨hq, hlast⟩
    refine ⟨Nat.lt_of_le_of_lt hq (by decide), ?_⟩
    rw [lastOn?_filter_isCarriedOut hq, hlast]

/-- The piece of a text is a level: a single digit, white space around it left aside. -/
def Spells (token : Text) (level : Nat) : Prop :=
  level ≤ highest ∧ Text.trim token = Text.ofNat level

theorem readLevel_eq_ok_iff {token : Text} {n : Nat} : readLevel token = .ok n ↔ Spells token n := by
  constructor
  · intro h
    refine ⟨le_of_readLevel h, ?_⟩
    unfold readLevel at h
    split at h
    · rename_i c htrim
      split at h
      · rename_i hdigit
        obtain ⟨d, hd, rfl⟩ := Text.exists_digitChar hdigit
        rw [Nat.toNat_digitChar_of_lt_ten hd] at h
        cases h
        have hvalue : 48 + d - '0'.toNat = d := Nat.add_sub_cancel_left ..
        rw [htrim, hvalue, Text.ofNat_of_lt hd]
      · cases h
    · cases h
  · rintro ⟨hn, htrim⟩
    have hread := readLevel_ofNat hn
    unfold readLevel at hread ⊢
    rwa [← htrim, Text.trim_trim] at hread

theorem exists_readLevel_iff {token : Text} :
    (∃ n, readLevel token = .ok n) ↔ ∃ n, Spells token n :=
  exists_congr fun _ => readLevel_eq_ok_iff

theorem readLevel_eq_error_iff {token : Text} {e : ValueFault} :
    readLevel token = .error e ↔
      (¬∃ n, Spells token n) ∧ e = .badLevel (Text.trim token) := by
  rw [← exists_readLevel_iff]
  unfold readLevel
  split
  · rename_i c htrim
    split
    · simp
    · simp [htrim, eq_comm]
  · simp [eq_comm]

theorem contains_foldl_insert {found : List Nat} (h : ∀ n ∈ found, n ≤ highest) (q : Nat) :
    (found.foldl insert empty).contains q = true ↔ q ∈ found := by
  have hempty : empty.set.contains q = false := BitSet.contains_empty q
  have hwidth : q ∈ found → q < 16 := fun hq => Nat.lt_of_le_of_lt (h q hq) (by decide)
  rw [contains, set_foldl_insert h, BitSet.contains_foldl_insert, hempty, Bool.false_or,
    Bool.and_eq_true, decide_eq_true_eq, decide_eq_true_eq]
  exact and_iff_right_of_imp hwidth

/-- A text has a piece at least, so that pieces that are levels are never without a level. -/
theorem isEmpty_foldl_insert {found : List Nat} (h : ∀ n ∈ found, n ≤ highest)
    (hne : found ≠ []) : (found.foldl insert empty).isEmpty = false := by
  obtain ⟨n, hn⟩ := List.exists_mem_of_ne_nil found hne
  have hmem := (contains_foldl_insert h n).2 hn
  rw [Bool.eq_false_iff]
  intro hempty
  rw [contains, BitSet.isEmpty_iff.1 hempty n] at hmem
  cases hmem

section Pieces

variable {t : Text} {found : List Nat}
  (h : List.Forall₂ (fun token n => readLevel token = .ok n) (Text.splitOn ',' t) found)

include h

theorem le_of_pieces : ∀ n ∈ found, n ≤ highest := by
  intro n hn
  obtain ⟨token, -, htoken⟩ := Outcome.exists_of_mem_right h hn
  exact le_of_readLevel htoken

theorem isEmpty_of_pieces : (found.foldl insert empty).isEmpty = false := by
  refine isEmpty_foldl_insert (le_of_pieces h) ?_
  rintro rfl
  exact Text.splitOn_ne_nil ',' t (List.forall₂_nil_right_iff.1 h)

theorem contains_of_pieces (q : Nat) :
    (found.foldl insert empty).contains q = true ↔
      ∃ token ∈ Text.splitOn ',' t, Spells token q := by
  rw [contains_foldl_insert (le_of_pieces h)]
  simp only [← readLevel_eq_ok_iff]
  constructor
  · exact fun hq => Outcome.exists_of_mem_right h hq
  · rintro ⟨token, htoken, hread⟩
    obtain ⟨n, hn, htoken⟩ := Outcome.exists_of_mem_left h htoken
    rw [htoken] at hread
    cases hread
    exact hn

end Pieces

theorem eq_of_contains {l m : InheritanceLevels} (h : ∀ q, l.contains q = m.contains q) :
    l = m :=
  congrArg mk (BitSet.eq_of_contains h)

/-- The levels that a text is read as are those that its pieces spell, if all of them spell one. -/
theorem parse_eq_ok_iff {t : Text} {l : InheritanceLevels} :
    parse t = .ok l ↔
      (∀ token ∈ Text.splitOn ',' t, ∃ n, Spells token n) ∧
        ∀ q, l.contains q = true ↔ ∃ token ∈ Text.splitOn ',' t, Spells token q := by
  rw [parse, Outcome.mapError_eq_ok, read_eq_ok_iff]
  simp only [← exists_readLevel_iff, ← Outcome.exists_mapM_iff, Outcome.mapM_eq_ok]
  constructor
  · rintro ⟨found, hfound, -, rfl⟩
    exact ⟨⟨found, hfound⟩, contains_of_pieces hfound⟩
  · rintro ⟨⟨found, hfound⟩, hcontains⟩
    refine ⟨found, hfound, isEmpty_of_pieces hfound, eq_of_contains fun q => ?_⟩
    rw [Bool.eq_iff_iff, contains_of_pieces hfound, hcontains]

/-- A text is refused at its first piece that spells no level. -/
theorem read_eq_error_iff {t : Text} {e : ValueFault} :
    read t = .error e ↔
      ∃ front token rest, Text.splitOn ',' t = front ++ token :: rest ∧
        (∀ u ∈ front, ∃ n, Spells u n) ∧ (¬∃ n, Spells token n) ∧
        e = .badLevel (Text.trim token) := by
  have hnever (found : List Nat) (hfound : (Text.splitOn ',' t).mapM readLevel = .ok found) :
      (found.foldl insert empty).isEmpty = false := isEmpty_of_pieces (Outcome.mapM_eq_ok.1 hfound)
  rw [read, Outcome.bind_eq_error, Outcome.mapM_eq_error]
  simp only [exists_readLevel_iff, readLevel_eq_error_iff]
  refine or_iff_left ?_
  rintro ⟨found, hfound, herror⟩
  rw [hnever found hfound] at herror
  cases herror

theorem parse_eq_error_iff {t : Text} {e : Error} :
    parse t = .error e ↔
      ∃ front token rest, Text.splitOn ',' t = front ++ token :: rest ∧
        (∀ u ∈ front, ∃ n, Spells u n) ∧ (¬∃ n, Spells token n) ∧
        e = .invalidValue .inheritance (.badLevel (Text.trim token)) := by
  rw [parse, Outcome.mapError_eq_error]
  constructor
  · rintro ⟨_, hread, rfl⟩
    obtain ⟨front, token, rest, hsplit, hfront, htoken, rfl⟩ := read_eq_error_iff.1 hread
    exact ⟨front, token, rest, hsplit, hfront, htoken, rfl⟩
  · rintro ⟨front, token, rest, hsplit, hfront, htoken, rfl⟩
    exact ⟨_, read_eq_error_iff.2 ⟨front, token, rest, hsplit, hfront, htoken, rfl⟩, rfl⟩

end InheritanceLevels

/--
After any run of changes a set of bits holds the positions within its width whose last change put
them in, and those that it held before and that were not changed; its list, number and emptiness
say the same.  Levels stay up to nine, and are read from the texts whose pieces between commas are
single digits, as the set of these digits.
-/
theorem bit_sets_are_finite_sets :
    (∀ (width : Nat) (s : BitSet width) (changes : List Change),
      (s.changeAll changes).Holds fun q => q < width ∧
        (lastOn? q changes = some (.insert q) ∨
          lastOn? q changes = none ∧ s.contains q = true)) ∧
    (∀ (changes : List Change) (q : Nat),
      q ∈ (InheritanceLevels.empty.changeAll changes).levels ↔
        q ≤ 9 ∧ lastOn? q changes = some (.insert q)) ∧
    (∀ (t : Text) (l : InheritanceLevels), InheritanceLevels.parse t = .ok l ↔
      (∀ token ∈ Text.splitOn ',' t, ∃ n, InheritanceLevels.Spells token n) ∧
        ∀ q, q ∈ l.levels ↔ ∃ token ∈ Text.splitOn ',' t, InheritanceLevels.Spells token q) ∧
    ∀ (t : Text) (e : Error), InheritanceLevels.parse t = .error e ↔
      ∃ front token rest, Text.splitOn ',' t = front ++ token :: rest ∧
        (∀ u ∈ front, ∃ n, InheritanceLevels.Spells u n) ∧
        (¬∃ n, InheritanceLevels.Spells token n) ∧
        e = .invalidValue .inheritance (.badLevel (Text.trim token)) := by
  refine ⟨fun width s changes => ?_, fun changes q => ?_, fun t l => ?_, fun t e => ?_⟩
  · exact BitSet.holds_of_contains_iff fun q => BitSet.contains_changeAll_iff
  · exact BitSet.mem_positions.trans InheritanceLevels.contains_changeAll_empty_iff
  · simp only [InheritanceLevels.parse_eq_ok_iff, InheritanceLevels.levels, BitSet.mem_positions,
      InheritanceLevels.contains]
  · exact InheritanceLevels.parse_eq_error_iff

example : ((BitSet.ofNat 4 : BitSet 8).changeAll
    [.insert 8, .insert 7, .erase 2, .insert 15]).positions = [7] := by
  decide

end DirectoryAccess
