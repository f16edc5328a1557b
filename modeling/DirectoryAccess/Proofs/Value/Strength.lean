import DirectoryAccess.Proofs.Outcome
import DirectoryAccess.Proofs.Outcome.Failing
import DirectoryAccess.Proofs.Text.Numeral
import DirectoryAccess.Value.Strength

/-!
# Strengths that are asked for

A strength is asked for by a word or by an integer of any length, which is brought
into the range from 0 to 256.  Reading stops where an integer leaves 64 bits, so
that whatever stands behind goes unseen.  A byte that may be missing is enough to
keep a strength.
-/

namespace DirectoryAccess

namespace Strength

/-- The text asks for the strength nearest to the integer: by a word in any case, or by a numeral. -/
def AsksFor (raw : Text) (n : Int) : Prop :=
  (Text.lower raw ∈ ["full".toList, "max".toList] ∧ n = 256) ∨
    (Text.lower raw ∈ ["none".toList, "off".toList] ∧ n = 0) ∨ Text.IsNumeral raw n

/-- A front of the text is a numeral of the integer, which 64 bits do not hold. -/
def Overruns (raw : Text) (n : Int) : Prop :=
  ∃ front rest, raw = front ++ rest ∧ Text.IsNumeral front n ∧
    (n < -9223372036854775808 ∨ 9223372036854775807 < n)

theorem value_ofInt (n : Int) : ((ofInt n).value.val : Int) = max 0 (min n 256) := by
  simp only [ofInt, greatest]
  omega

theorem eq_ofInt_iff {s : Strength} {n : Int} :
    s = ofInt n ↔ (s.value.val : Int) = max 0 (min n 256) := by
  obtain ⟨value⟩ := s
  rw [← value_ofInt, Int.natCast_inj, ← Fin.ext_iff]
  exact ⟨congrArg Strength.value, congrArg Strength.mk⟩

/-- The byte in which a strength is kept: one less than the strength, and no byte for zero. -/
def byte? (s : Strength) : Option UInt8 :=
  if s.value.val = 0 then none else some (UInt8.ofNat (s.value.val - 1))

def ofByte? : Option UInt8 → Strength
  | none => ⟨⟨0, Nat.succ_pos 256⟩⟩
  | some byte => ⟨⟨byte.toNat + 1, Nat.succ_lt_succ byte.toNat_lt⟩⟩

theorem value_ofByte? (byte : Option UInt8) :
    (ofByte? byte).value.val = byte.elim 0 fun b => b.toNat + 1 := by
  cases byte <;> rfl

theorem byte?_ofByte? (byte : Option UInt8) : (ofByte? byte).byte? = byte := by
  cases byte with
  | none => rfl
  | some b => simp [byte?, ofByte?]

theorem ofByte?_byte? (s : Strength) : ofByte? s.byte? = s := by
  obtain ⟨⟨n, hn⟩⟩ := s
  cases n with
  | zero => rfl
  | succ n =>
      have hbyte : (UInt8.ofNat n).toNat = n := UInt8.toNat_ofNat_of_lt' (Nat.lt_of_succ_lt_succ hn)
      simp [byte?, ofByte?, hbyte]

theorem exists_ofByte?_eq (s : Strength) : ∃ byte, ofByte? byte = s :=
  ⟨s.byte?, ofByte?_byte? s⟩

/-- The strength that is kept is read off its byte. -/
theorem value_eq_elim (s : Strength) : s.value.val = s.byte?.elim 0 fun b => b.toNat + 1 := by
  rw [← value_ofByte?, ofByte?_byte?]

theorem byte?_ofInt (n : Int) :
    (ofInt n).byte? = if n ≤ 0 then none else some (UInt8.ofNat (min n 256 - 1).toNat) := by
  have hvalue := value_ofInt n
  rw [byte?]
  split
  case isTrue hzero => rw [if_pos (by omega)]
  case isFalse hpos =>
    rw [if_neg (by omega)]
    congr 2
    omega

theorem ofInt_elim (byte : Option UInt8) :
    ofInt (byte.elim 0 fun b => b.toNat + 1) = ofByte? byte := by
  rw [eq_comm, eq_ofInt_iff, value_ofByte?]
  cases byte with
  | none => rfl
  | some b =>
      have hlt : b.toNat < 256 := b.toNat_lt
      simp only [Option.elim_some]
      omega

theorem lookup_words_eq_some_iff {word : Text} {n : Int} :
    words.lookup word = some n ↔
      (word ∈ ["full".toList, "max".toList] ∧ n = 256) ∨
        (word ∈ ["none".toList, "off".toList] ∧ n = 0) := by
  constructor
  · intro h
    obtain ⟨front, rest, hsplit, -⟩ := List.lookup_eq_some_iff.1 h
    have hmem : (word, n) ∈ words := by simp [hsplit]
    simp only [words, List.mem_cons, Prod.mk.injEq, List.not_mem_nil, or_false] at hmem
    rcases hmem with ⟨rfl, rfl⟩ | ⟨rfl, rfl⟩ | ⟨rfl, rfl⟩ | ⟨rfl, rfl⟩
    · exact .inl ⟨by decide, rfl⟩
    · exact .inl ⟨by decide, rfl⟩
    · exact .inr ⟨by decide, rfl⟩
    · exact .inr ⟨by decide, rfl⟩
  · simp only [List.mem_cons, List.not_mem_nil, or_false]
    rintro (⟨rfl | rfl, rfl⟩ | ⟨rfl | rfl, rfl⟩) <;> rfl

theorem isLower_toLower_of_isDigit {c : Char} (h : c.isDigit = true) :
    c.toLower.isLower = false := by
  obtain ⟨d, hd, rfl⟩ := Text.exists_digitChar h
  clear h
  revert d
  decide

/-- What starts with a numeral holds a digit, and is none of the words. -/
theorem lookup_words_of_isNumeral {front : Text} {n : Int} (h : Text.IsNumeral front n)
    (rest : Text) : words.lookup (Text.lower (front ++ rest)) = none := by
  have hwords : ∀ p ∈ words, p.1.all Char.isLower = true := by decide
  obtain ⟨sign, digits, rfl, -, hne, hdigits, -⟩ := h
  obtain ⟨d, hd⟩ := List.exists_mem_of_ne_nil digits hne
  rw [List.lookup_eq_none_iff]
  intro p hp
  have hletters := hwords p hp
  rw [bne_iff_ne]
  intro hsame
  rw [← hsame, Text.lower, List.all_map, List.all_eq_true] at hletters
  have hletter := hletters d (by simp [hd])
  rw [Function.comp_apply, isLower_toLower_of_isDigit (hdigits d hd)] at hletter
  cases hletter

theorem int64_eq_value_iff {t : Text} {n : Int} :
    Text.int64 t = .value n ↔
      Text.IsNumeral t n ∧ -9223372036854775808 ≤ n ∧ n ≤ 9223372036854775807 :=
  Text.bounded_eq_value_iff (by decide) (by decide)

theorem int64_eq_tooHigh_iff {t : Text} :
    Text.int64 t = .tooHigh ↔
      ∃ front rest n, t = front ++ rest ∧ Text.IsNumeral front n ∧ 9223372036854775807 < n :=
  Text.bounded_eq_over_iff (by decide) (by decide) (.inl rfl)

theorem int64_eq_tooLow_iff {t : Text} :
    Text.int64 t = .tooLow ↔
      ∃ front rest n, t = front ++ rest ∧ Text.IsNumeral front n ∧ n < -9223372036854775808 :=
  Text.bounded_eq_over_iff (by decide) (by decide) (.inr rfl)

theorem exists_of_asked? {t : Text} {m : Int} (h : asked? t = some m) :
    ∃ n, (AsksFor (Text.trim t) n ∨ Overruns (Text.trim t) n) ∧
      max 0 (min m 256) = max 0 (min n 256) := by
  simp only [asked?] at h
  split at h
  · rename_i n hword
    cases h
    refine ⟨m, .inl ?_, rfl⟩
    rcases lookup_words_eq_some_iff.1 hword with hword | hword
    · exact .inl hword
    · exact .inr (.inl hword)
  · split at h
    · rename_i n hvalue
      cases h
      exact ⟨m, .inl (.inr (.inr (int64_eq_value_iff.1 hvalue).1)), rfl⟩
    · rename_i hhigh
      cases h
      obtain ⟨front, rest, n, hsplit, hnumeral, hover⟩ := int64_eq_tooHigh_iff.1 hhigh
      refine ⟨n, .inr ⟨front, rest, hsplit, hnumeral, .inr hover⟩, ?_⟩
      rw [greatest]
      omega
    · rename_i hlow
      cases h
      obtain ⟨front, rest, n, hsplit, hnumeral, hover⟩ := int64_eq_tooLow_iff.1 hlow
      exact ⟨n, .inr ⟨front, rest, hsplit, hnumeral, .inl hover⟩, by omega⟩
    · cases h

theorem exists_asked?_of_overruns {t : Text} {n : Int} (h : Overruns (Text.trim t) n) :
    ∃ m, asked? t = some m ∧ max 0 (min m 256) = max 0 (min n 256) := by
  obtain ⟨front, rest, hsplit, hnumeral, hover⟩ := h
  have hword := lookup_words_of_isNumeral hnumeral rest
  rw [← hsplit] at hword
  rcases hover with hover | hover
  · have hlow := int64_eq_tooLow_iff.2 ⟨front, rest, n, hsplit, hnumeral, hover⟩
    simp only [asked?, hword, hlow]
    exact ⟨0, rfl, by omega⟩
  · have hhigh := int64_eq_tooHigh_iff.2 ⟨front, rest, n, hsplit, hnumeral, hover⟩
    simp only [asked?, hword, hhigh]
    exact ⟨greatest, rfl, by rw [greatest]; omega⟩

theorem exists_asked?_of_asksFor {t : Text} {n : Int} (h : AsksFor (Text.trim t) n) :
    ∃ m, asked? t = some m ∧ max 0 (min m 256) = max 0 (min n 256) := by
  have hlookup (hword : words.lookup (Text.lower (Text.trim t)) = some n) :
      asked? t = some n := by
    simp only [asked?, hword]
  rcases h with hword | hword | hnumeral
  · exact ⟨n, hlookup (lookup_words_eq_some_iff.2 (.inl hword)), rfl⟩
  · exact ⟨n, hlookup (lookup_words_eq_some_iff.2 (.inr hword)), rfl⟩
  · by_cases hfits : -9223372036854775808 ≤ n ∧ n ≤ 9223372036854775807
    · have hword := lookup_words_of_isNumeral hnumeral []
      have hvalue := int64_eq_value_iff.2 ⟨hnumeral, hfits⟩
      rw [List.append_nil] at hword
      simp only [asked?, hword, hvalue]
      exact ⟨n, rfl, rfl⟩
    · exact exists_asked?_of_overruns ⟨Text.trim t, [], by simp, hnumeral, by omega⟩

theorem asked?_eq_none_iff {t : Text} :
    asked? t = none ↔ ∀ n, ¬AsksFor (Text.trim t) n ∧ ¬Overruns (Text.trim t) n := by
  constructor
  · intro h n
    constructor
    · intro hn
      obtain ⟨m, hm, -⟩ := exists_asked?_of_asksFor hn
      rw [h] at hm
      cases hm
    · intro hn
      obtain ⟨m, hm, -⟩ := exists_asked?_of_overruns hn
      rw [h] at hm
      cases hm
  · intro h
    rw [Option.eq_none_iff_forall_ne_some]
    intro m hm
    obtain ⟨n, hn, -⟩ := exists_of_asked? hm
    exact hn.elim (h n).1 (h n).2

theorem read_eq_ok_iff {t : Text} {s : Strength} :
    read t = .ok s ↔
      ∃ n, (AsksFor (Text.trim t) n ∨ Overruns (Text.trim t) n) ∧
        (s.value.val : Int) = max 0 (min n 256) := by
  have hread : read t = .ok s ↔ ∃ m, asked? t = some m ∧ s = ofInt m := by
    rw [read]
    cases asked? t <;> simp [eq_comm]
  simp only [hread, eq_ofInt_iff]
  constructor
  · rintro ⟨m, hm, hs⟩
    obtain ⟨n, hn, hsame⟩ := exists_of_asked? hm
    exact ⟨n, hn, hs.trans hsame⟩
  · rintro ⟨n, hn, hs⟩
    obtain ⟨m, hm, hsame⟩ := hn.elim exists_asked?_of_asksFor exists_asked?_of_overruns
    exact ⟨m, hm, hs.trans hsame.symm⟩

theorem read_eq_error_iff {t : Text} {fault : ValueFault} :
    read t = .error fault ↔
      (∀ n, ¬AsksFor (Text.trim t) n ∧ ¬Overruns (Text.trim t) n) ∧
        fault = .notStrength (Text.trim t) := by
  rw [← asked?_eq_none_iff, read]
  cases asked? t <;> simp [eq_comm]

/-- Every strength is read from its own text. -/
theorem read_text (s : Strength) : read s.text = .ok s := by
  obtain ⟨⟨n, hn⟩⟩ := s
  rw [read_eq_ok_iff, text, Text.trim_eq_self (Text.isTrimmed_ofNat n)]
  exact ⟨n, .inl (.inr (.inr (Text.isNumeral_ofNat n))), by dsimp only; omega⟩

/--
A strength is read from the words, from the numerals of any length, and from the texts of
which a front is a numeral that 64 bits do not hold, and is the integer brought into the
range.  Every other text is refused.
-/
theorem parse_iff_asked_or_overrun (t : Text) :
    (∀ s, parse t = .ok s ↔
      ∃ n, (AsksFor (Text.trim t) n ∨ Overruns (Text.trim t) n) ∧
        (s.value.val : Int) = max 0 (min n 256)) ∧
    ∀ e, parse t = .error e ↔
      (∀ n, ¬AsksFor (Text.trim t) n ∧ ¬Overruns (Text.trim t) n) ∧
        e = .invalidValue (.keyword (.bind .ssf)) (.notStrength (Text.trim t)) := by
  constructor
  · intro s
    rw [parse, Outcome.mapError_eq_ok, read_eq_ok_iff]
  · intro e
    simp only [parse, Outcome.mapError_eq_error, read_eq_error_iff]
    constructor
    · rintro ⟨_, ⟨hrefused, rfl⟩, rfl⟩
      exact ⟨hrefused, rfl⟩
    · rintro ⟨hrefused, rfl⟩
      exact ⟨_, ⟨hrefused, rfl⟩, rfl⟩

/-- A letter behind a number of more than 64 bits goes unseen, though no strength is asked for. -/
theorem overrun_hides_letter :
    parse "9999999999999999999x".toList = .ok ⟨256⟩ ∧
      ∀ n, ¬AsksFor (Text.trim "9999999999999999999x".toList) n := by
  refine ⟨rfl, ?_⟩
  have htrim : Text.trim "9999999999999999999x".toList = "9999999999999999999x".toList := by decide
  rw [htrim]
  rintro n (⟨hword, -⟩ | ⟨hword, -⟩ | ⟨sign, digits, hsplit, hsign, -, hdigits, -⟩)
  · exact absurd hword (by decide)
  · exact absurd hword (by decide)
  · have hletter : 'x' ∈ sign ++ digits := by
      rw [← hsplit]
      decide
    rcases List.mem_append.1 hletter with hmem | hmem
    · rcases hsign with rfl | rfl | rfl <;> exact absurd hmem (by decide)
    · exact absurd (hdigits 'x' hmem) (by decide)

end Strength

end DirectoryAccess
