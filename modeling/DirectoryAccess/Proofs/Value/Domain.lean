import DirectoryAccess.Proofs.Value.Bind
import DirectoryAccess.Proofs.Value.Pushing
import Mathlib.Computability.RegularExpressions

/-!
# Names of domains

The labels of a name are the words of a regular expression, which are told by their length,
their characters and their ends.  A list of names is read if its entries are made of such
labels, and keeps the first of those that differ in case only.
-/

namespace DirectoryAccess

namespace DomainList

/-- A label: a star, or up to 63 letters, digits and hyphens with no hyphen at either end. -/
inductive IsLabel : Text → Prop where
  | star : IsLabel ['*']
  | word {t : Text} (hne : t ≠ []) (hlength : t.length ≤ 63)
      (hchars : ∀ c ∈ t, c.isAlphanum = true ∨ c = '-') (hfirst : t.head? ≠ some '-')
      (hlast : t.getLast? ≠ some '-') : IsLabel t

theorem isAlphanum_of_ne_hyphen {c : Char} (h : c.isAlphanum = true ∨ c = '-')
    (hc : some c ≠ some '-') : c.isAlphanum = true :=
  h.resolve_right fun heq => hc (congrArg some heq)

theorem ne_hyphen_of_isAlphanum {c : Char} (h : c.isAlphanum = true) : some c ≠ some '-' := by
  rintro ⟨⟩
  exact absurd h (by decide)

theorem isLabel_iff {t : Text} : isLabel t = true ↔ IsLabel t := by
  rw [isLabel, Bool.or_eq_true, beq_iff_eq]
  by_cases hnil : t = []
  · subst hnil
    refine iff_of_false (by simp) ?_
    intro h
    cases h with
    | word hne => exact hne rfl
  · obtain ⟨first, rest, hfirst⟩ := List.exists_cons_of_ne_nil hnil
    have hhead : t.head? = some first := by rw [hfirst]; rfl
    have hend : t.getLast? = some (t.getLast hnil) := List.getLast?_eq_some_getLast hnil
    have hmem : first ∈ t := List.mem_of_head? hhead
    have hmem' : t.getLast hnil ∈ t := List.getLast_mem hnil
    rw [hhead, hend]
    simp only [Bool.and_eq_true, decide_eq_true_eq, List.all_eq_true, Bool.or_eq_true, beq_iff_eq,
      Option.map_some, Option.getD_some]
    constructor
    · rintro (rfl | ⟨⟨⟨hlength, hchars⟩, hfirst⟩, hlast⟩)
      · exact .star
      · refine .word hnil hlength hchars ?_ ?_
        · rw [hhead]
          exact ne_hyphen_of_isAlphanum hfirst
        · rw [hend]
          exact ne_hyphen_of_isAlphanum hlast
    · intro h
      cases h with
      | star => exact .inl rfl
      | word hne hlength hchars hfirst hlast =>
          rw [hhead] at hfirst
          rw [hend] at hlast
          exact .inr ⟨⟨⟨hlength, hchars⟩, isAlphanum_of_ne_hyphen (hchars _ hmem) hfirst⟩,
            isAlphanum_of_ne_hyphen (hchars _ hmem') hlast⟩

def between (first last : Char) : Text :=
  (List.range' first.toNat (last.toNat + 1 - first.toNat)).map Char.ofNat

def alphanums : Text := between 'A' 'Z' ++ between 'a' 'z' ++ between '0' '9'

def oneOf (chars : Text) : RegularExpression Char :=
  chars.foldr (fun c others => .char c + others) 0

/-- The pattern of a label, `\*|[A-Za-z0-9]([A-Za-z0-9-]{0,61}[A-Za-z0-9])?`. -/
def labelPattern : RegularExpression Char :=
  .char '*' +
    oneOf alphanums * (1 + (1 + oneOf ('-' :: alphanums)) ^ 61 * oneOf alphanums)

-- Numbers from 55296 on are not all those of characters.
theorem mem_between_iff {first last c : Char} (hlast : last.toNat < 55296) :
    c ∈ between first last ↔ first.toNat ≤ c.toNat ∧ c.toNat ≤ last.toNat := by
  simp only [between, List.mem_map, List.mem_range'_1]
  constructor
  · rintro ⟨n, hn, rfl⟩
    have hvalid : n.isValidChar := .inl (by omega)
    have hnumber : (Char.ofNat n).toNat = n := by
      rw [Char.ofNat, dif_pos hvalid]
      rfl
    omega
  · intro hc
    exact ⟨c.toNat, by omega, Char.ofNat_toNat c⟩

theorem mem_alphanums_iff {c : Char} : c ∈ alphanums ↔ c.isAlphanum = true := by
  have hclasses : c.isAlphanum = ((decide ('A'.val ≤ c.val ∧ c.val ≤ 'Z'.val) ||
      decide ('a'.val ≤ c.val) && decide (c.val ≤ 'z'.val)) ||
        decide ('0'.val ≤ c.val) && decide (c.val ≤ '9'.val)) := rfl
  simp (disch := decide) only [alphanums, List.mem_append, mem_between_iff]
  simp only [hclasses, Bool.or_eq_true, Bool.and_eq_true, decide_eq_true_eq,
    UInt32.le_iff_toNat_le]
  exact Iff.rfl

theorem mem_oneOf_iff {chars t : Text} :
    t ∈ (oneOf chars).matches' ↔ ∃ c ∈ chars, t = [c] := by
  induction chars with
  | nil => simp [oneOf, Language.notMem_zero]
  | cons c chars ih =>
      have hcons : oneOf (c :: chars) = .char c + oneOf chars := rfl
      have hchar : t ∈ (RegularExpression.char c).matches' ↔ t = [c] := Iff.rfl
      rw [hcons, RegularExpression.matches'_add, Language.mem_add, ih, hchar]
      simp

theorem mem_optional_iff {r : RegularExpression Char} {t : Text} :
    t ∈ (1 + r).matches' ↔ t = [] ∨ t ∈ r.matches' := by
  rw [RegularExpression.matches'_add, Language.mem_add, RegularExpression.matches'_epsilon,
    Language.mem_one]

/-- Up to so many characters of a class. -/
theorem mem_upTo_iff {chars t : Text} {n : Nat} :
    t ∈ ((1 + oneOf chars) ^ n).matches' ↔ t.length ≤ n ∧ ∀ c ∈ t, c ∈ chars := by
  rw [RegularExpression.matches'_pow]
  induction n generalizing t with
  | zero =>
      rw [pow_zero, Language.mem_one, Nat.le_zero, List.length_eq_zero_iff]
      refine (and_iff_left_of_imp ?_).symm
      rintro rfl
      simp
  | succ n ih =>
      rw [pow_succ', Language.mem_mul]
      simp only [mem_optional_iff, mem_oneOf_iff, ih]
      constructor
      · rintro ⟨front, rfl | ⟨c, hc, rfl⟩, rest, ⟨hlength, hrest⟩, rfl⟩
        · exact ⟨Nat.le_succ_of_le hlength, hrest⟩
        · exact ⟨Nat.succ_le_succ hlength, List.forall_mem_cons.2 ⟨hc, hrest⟩⟩
      · rintro ⟨hlength, hall⟩
        cases t with
        | nil => exact ⟨[], .inl rfl, [], ⟨Nat.zero_le n, hall⟩, rfl⟩
        | cons c cs =>
            obtain ⟨hc, hcs⟩ := List.forall_mem_cons.1 hall
            exact ⟨[c], .inr ⟨c, hc, rfl⟩, cs, ⟨Nat.le_of_succ_le_succ hlength, hcs⟩, rfl⟩

/-- The counted tail: nothing, or up to 62 characters of which the last is no hyphen. -/
theorem mem_tail_iff {t : Text} :
    t ∈ (1 + (1 + oneOf ('-' :: alphanums)) ^ 61 * oneOf alphanums).matches' ↔
      t.length ≤ 62 ∧ (∀ c ∈ t, c.isAlphanum = true ∨ c = '-') ∧ t.getLast? ≠ some '-' := by
  have hclass (c : Char) : c ∈ '-' :: alphanums ↔ c.isAlphanum = true ∨ c = '-' := by
    rw [List.mem_cons, mem_alphanums_iff, or_comm]
  rw [mem_optional_iff, RegularExpression.matches'_mul, Language.mem_mul]
  simp only [mem_upTo_iff, mem_oneOf_iff, hclass, mem_alphanums_iff]
  constructor
  · rintro (rfl | ⟨front, ⟨hlength, hfront⟩, _, ⟨last, hlast, rfl⟩, rfl⟩)
    · simp
    · refine ⟨by simpa using Nat.lt_succ_of_le hlength, ?_, ?_⟩
      · intro c hc
        rcases List.mem_append.1 hc with hc | hc
        · exact hfront c hc
        · rw [List.mem_singleton.1 hc]
          exact .inl hlast
      · rw [List.getLast?_concat]
        exact ne_hyphen_of_isAlphanum hlast
  · rintro ⟨hlength, hall, hlast⟩
    rcases List.eq_nil_or_concat' t with rfl | ⟨front, last, rfl⟩
    · exact .inl rfl
    · rw [List.getLast?_concat] at hlast
      rw [List.length_append, List.length_singleton] at hlength
      refine .inr ⟨front, ⟨Nat.le_of_succ_le_succ hlength, ?_⟩, [last], ⟨last, ?_, rfl⟩, rfl⟩
      · exact fun c hc => hall c (List.mem_append_left _ hc)
      · exact isAlphanum_of_ne_hyphen (hall last (by simp)) hlast

theorem getLast?_cons_ne_hyphen_iff {c : Char} (hc : c.isAlphanum = true) (cs : Text) :
    (c :: cs).getLast? ≠ some '-' ↔ cs.getLast? ≠ some '-' := by
  rw [List.getLast?_cons]
  cases cs.getLast? with
  | none => exact iff_of_true (ne_hyphen_of_isAlphanum hc) nofun
  | some d => exact Iff.rfl

/-- The pattern and the rule give the same labels. -/
theorem mem_labelPattern_iff {t : Text} : t ∈ labelPattern.matches' ↔ IsLabel t := by
  have hstar : t ∈ (RegularExpression.char '*').matches' ↔ t = ['*'] := Iff.rfl
  rw [labelPattern, RegularExpression.matches'_add, Language.mem_add, hstar,
    RegularExpression.matches'_mul, Language.mem_mul]
  simp only [mem_oneOf_iff, mem_tail_iff, mem_alphanums_iff]
  constructor
  · rintro (rfl | ⟨_, ⟨first, hfirst, rfl⟩, rest, ⟨hlength, hrest, hlast⟩, rfl⟩)
    · exact .star
    · refine .word (List.cons_ne_nil first rest) (Nat.succ_le_succ hlength) ?_ ?_ ?_
      · exact List.forall_mem_cons.2 ⟨.inl hfirst, hrest⟩
      · exact ne_hyphen_of_isAlphanum hfirst
      · exact (getLast?_cons_ne_hyphen_iff hfirst rest).2 hlast
  · intro h
    cases h with
    | star => exact .inl rfl
    | word hne hlength hchars hfirst hlast =>
        obtain ⟨first, rest, rfl⟩ := List.exists_cons_of_ne_nil hne
        obtain ⟨hstart, hrest⟩ := List.forall_mem_cons.1 hchars
        have halphanum := isAlphanum_of_ne_hyphen hstart hfirst
        exact .inr ⟨[first], ⟨first, halphanum, rfl⟩, rest, ⟨Nat.le_of_succ_le_succ hlength, hrest,
          (getLast?_cons_ne_hyphen_iff halphanum rest).1 hlast⟩, rfl⟩

/-- The name of a domain: at most 253 bytes, and at least two labels between dots. -/
structure IsDomain (name : Text) : Prop where
  short : Text.byteLength name ≤ 253
  labelled : 2 ≤ (Text.splitOn '.' name).length
  labels : ∀ label ∈ Text.splitOn '.' name, IsLabel label

theorem nameFault?_eq_none_iff {name : Text} : nameFault? name = none ↔ IsDomain name := by
  have hlabels : (Text.splitOn '.' name).find? (fun label => !isLabel label) = none ↔
      ∀ label ∈ Text.splitOn '.' name, IsLabel label := by
    simp only [List.find?_eq_none, Bool.not_eq_true, Bool.not_eq_false', isLabel_iff]
  rw [nameFault?]
  by_cases hlong : longestDomain < Text.byteLength name
  · rw [if_pos hlong]
    exact iff_of_false nofun fun h => absurd h.short (Nat.not_le.2 hlong)
  · rw [if_neg hlong]
    by_cases hfew : (Text.splitOn '.' name).length < 2
    · rw [if_pos hfew]
      exact iff_of_false nofun fun h => absurd h.labelled (Nat.not_le.2 hfew)
    · rw [if_neg hfew, Option.map_eq_none_iff, hlabels]
      exact ⟨fun h => ⟨Nat.not_lt.1 hlong, Nat.not_lt.1 hfew, h⟩, IsDomain.labels⟩

theorem names_foldl_push (names : List Text) :
    (names.foldl push empty).names = Distinct.firsts Text.sameFold names :=
  (isPushed.keepsFirsts Text.equivalence_sameFold).items_pushed names

theorem parse_eq_ok_iff {t : Text} {l : DomainList} :
    parse t = .ok l ↔
      Text.commaEntries t ≠ [] ∧ (∀ name ∈ Text.commaEntries t, IsDomain name) ∧
        l.names = Distinct.firsts Text.sameFold (Text.commaEntries t) := by
  obtain ⟨names⟩ := l
  rw [parse, Outcome.mapError_eq_ok, read_eq_ok_iff]
  simp only [nameFault?_eq_none_iff, ← names_foldl_push]
  refine and_congr_right fun _ => and_congr_right fun _ => ?_
  constructor
  · intro h
    rw [h]
  · intro h
    exact congrArg mk h.symm

theorem parse_text {t : Text} {l : DomainList} (h : parse t = .ok l) : parse l.text = .ok l :=
  Outcome.mapError_eq_ok.2 (read_text (Outcome.mapError_eq_ok.1 h))

/--
A list of names is read from exactly the texts with an entry between commas whose entries are all
names of domains, as the entries without those that repeat an earlier one in any case, and is read
from its own text again.  The labels of names are the words of the pattern.
-/
theorem domain_lists_are_exact (t : Text) :
    (∀ l, parse t = .ok l ↔
      Text.commaEntries t ≠ [] ∧ (∀ name ∈ Text.commaEntries t, IsDomain name) ∧
        l.names = Distinct.firsts Text.sameFold (Text.commaEntries t)) ∧
    (∀ l, parse t = .ok l → parse l.text = .ok l) ∧
    ∀ label, (isLabel label = true ↔ label ∈ labelPattern.matches') ∧
      (label ∈ labelPattern.matches' ↔ IsLabel label) := by
  refine ⟨fun l => parse_eq_ok_iff, fun l h => parse_text h, fun label => ?_⟩
  exact ⟨isLabel_iff.trans mem_labelPattern_iff.symm, mem_labelPattern_iff⟩

/-- Names with a star and with a label of 63 characters, a blank entry, and one name twice. -/
def mixedDomains : Text :=
  " *.Example.com,, x-1.".toList ++ List.replicate 63 'x' ++ ", *.example.COM".toList

def keptDomains : DomainList :=
  ⟨["*.Example.com".toList, "x-1.".toList ++ List.replicate 63 'x']⟩

theorem domain_lists_are_exact_of_mixedDomains :
    parse mixedDomains = .ok keptDomains ∧
      keptDomains.names = Distinct.firsts Text.sameFold (Text.commaEntries mixedDomains) ∧
      parse keptDomains.text = .ok keptDomains := by
  have hread : parse mixedDomains = .ok keptDomains := rfl
  obtain ⟨haccepted, hagain, -⟩ := domain_lists_are_exact mixedDomains
  exact ⟨hread, ((haccepted _).1 hread).2.2, hagain _ hread⟩

end DomainList

end DirectoryAccess
