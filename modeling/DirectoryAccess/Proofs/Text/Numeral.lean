import DirectoryAccess.Proofs.Text.Trim
import DirectoryAccess.Text.Numeral
import Mathlib.Data.Nat.Basic

/-!
# Numerals read back

An integer is read from an optional sign and digits if it is within the bounds, and
a text of which a front is a numeral beyond a bound is told to be beyond it.  Digits
of a fixed width are those of the number that they stand for, behind zeros.
-/

namespace DirectoryAccess

namespace Text

/-- A digit is the digit of a number below ten. -/
theorem exists_digitChar {c : Char} (h : c.isDigit = true) : ∃ d, d < 10 ∧ Nat.digitChar d = c := by
  have hrange : 48 ≤ c.toNat ∧ c.toNat ≤ 57 := by
    simpa [Char.isDigit, UInt32.le_iff_toNat_le] using h
  refine ⟨c.toNat - 48, by omega, ?_⟩
  apply Char.toNat_inj.1
  rw [Nat.toNat_digitChar_of_lt_ten (by omega)]
  omega

theorem isBlank_of_isDigit {c : Char} (h : c.isDigit = true) : isBlank c = false := by
  obtain ⟨d, hd, rfl⟩ := exists_digitChar h
  revert d
  decide

theorem isDigit_of_mem_ofNat {n : Nat} {c : Char} (h : c ∈ ofNat n) : c.isDigit = true :=
  Nat.isDigit_of_mem_toDigits (by decide) (by decide) h

theorem ofNat_of_lt {n : Nat} (h : n < 10) : ofNat n = [Nat.digitChar n] :=
  Nat.toDigits_of_lt_base h

theorem ofNat_append {n d : Nat} (hn : 0 < n) (hd : d < 10) :
    ofNat (10 * n + d) = ofNat n ++ [Nat.digitChar d] := by
  rw [← ofNat_of_lt hd]
  exact (Nat.toDigits_append_toDigits (by decide) hn hd).symm

theorem ofNat_ne_nil (n : Nat) : ofNat n ≠ [] :=
  Nat.toDigits_ne_nil

theorem isTrimmed_ofNat (n : Nat) : (ofNat n).IsTrimmed :=
  isTrimmed_of_forall fun _ hc => isBlank_of_isDigit (isDigit_of_mem_ofNat hc)

theorem le_ofDigitChars (digits : Text) (n : Nat) : n ≤ Nat.ofDigitChars 10 digits n := by
  induction digits generalizing n with
  | nil => exact Nat.le_refl n
  | cons c cs ih =>
      have hrest := ih (10 * n + (c.toNat - '0'.toNat))
      rw [Nat.ofDigitChars_cons]
      omega

def signed (negative : Bool) (n : Nat) : Int :=
  if negative then -n else n

@[simp] theorem signed_false (n : Nat) : signed false n = n :=
  rfl

@[simp] theorem signed_true (n : Nat) : signed true n = -n :=
  rfl

def IsSign (sign : Text) : Prop :=
  sign = [] ∨ sign = ['+'] ∨ sign = ['-']

/-- The text is an optional sign and one or more digits, and stands for the integer. -/
def IsNumeral (t : Text) (n : Int) : Prop :=
  ∃ sign digits, t = sign ++ digits ∧ IsSign sign ∧ digits ≠ [] ∧
    (∀ c ∈ digits, c.isDigit = true) ∧ n = signed (sign == ['-']) (Nat.ofDigitChars 10 digits 0)

theorem isNumeral_ofNat (n : Nat) : IsNumeral (ofNat n) n := by
  refine ⟨[], ofNat n, rfl, .inl rfl, ofNat_ne_nil n, fun c hc => isDigit_of_mem_ofNat hc, ?_⟩
  rw [ofNat, Nat.ofDigitChars_toDigits (by decide) (by decide)]
  rfl

def IntReading.opposite : IntReading → IntReading
  | value n => value (-n)
  | tooHigh => tooLow
  | tooLow => tooHigh
  | notNumeral => notNumeral

theorem IntReading.opposite_eq_iff {r s : IntReading} : r.opposite = s ↔ r = s.opposite := by
  cases r <;> cases s <;> simp only [opposite, reduceCtorEq, value.injEq]
  omega

/-- The reading tells of a number beyond a bound, and the integer is beyond it. -/
def IntReading.TellsOver (low high : Int) : IntReading → Int → Prop
  | tooHigh, n => high < n
  | tooLow, n => n < low
  | value _, _ => False
  | notNumeral, _ => False

section Bounded

variable {low high : Int}

/-- Below zero the reader does what it does above zero. -/
theorem boundedFrom_true (sofar : Int) (t : Text) :
    boundedFrom low high true (-sofar) t =
      (boundedFrom (-high) (-low) false sofar t).opposite := by
  induction t generalizing sofar with
  | nil => rfl
  | cons c cs ih =>
      rw [boundedFrom, boundedFrom]
      cases digit? c with
      | none => rfl
      | some d =>
          have hnext : -sofar * 10 - d = -(sofar * 10 + d) := by omega
          have hbound : -(sofar * 10 + d) < low ↔ -low < sofar * 10 + d := by omega
          simp only [if_true, Bool.false_eq_true, if_false, hnext, hbound]
          split
          · rfl
          · exact ih (sofar * 10 + d)

theorem boundedFrom_cons {c : Char} (hc : c.isDigit = true) (n : Nat) (cs : Text) :
    boundedFrom low high false n (c :: cs) =
      if high < (10 * n + (c.toNat - '0'.toNat) : Nat) then .tooHigh
      else boundedFrom low high false (10 * n + (c.toNat - '0'.toNat) : Nat) cs := by
  have hnext : (n : Int) * 10 + (c.toNat - '0'.toNat : Nat) =
      (10 * n + (c.toNat - '0'.toNat) : Nat) := by omega
  rw [boundedFrom, digit?, if_pos hc]
  simp only [Bool.false_eq_true, if_false, hnext]

theorem boundedFrom_cons_of_not_digit {c : Char} (hc : c.isDigit = false) (n : Nat) (cs : Text) :
    boundedFrom low high false n (c :: cs) = .notNumeral := by
  rw [boundedFrom, digit?, if_neg (Bool.eq_false_iff.1 hc)]

theorem boundedFrom_ne_tooLow (n : Nat) (t : Text) :
    boundedFrom low high false n t ≠ .tooLow := by
  induction t generalizing n with
  | nil => exact nofun
  | cons c cs ih =>
      cases hc : c.isDigit with
      | false =>
          rw [boundedFrom_cons_of_not_digit hc]
          exact nofun
      | true =>
          rw [boundedFrom_cons hc]
          split
          · exact nofun
          · exact ih _

/-- A number is read if nothing but digits follows and all of them stay below the bound. -/
theorem boundedFrom_eq_value_iff {n : Nat} (h : (n : Int) ≤ high) {t : Text} {v : Int} :
    boundedFrom low high false n t = .value v ↔
      (∀ c ∈ t, c.isDigit = true) ∧ v = Nat.ofDigitChars 10 t n ∧ v ≤ high := by
  induction t generalizing n with
  | nil =>
      rw [boundedFrom, Nat.ofDigitChars_nil, IntReading.value.injEq]
      constructor
      · rintro rfl
        exact ⟨by simp, rfl, h⟩
      · exact fun hv => hv.2.1.symm
  | cons c cs ih =>
      cases hc : c.isDigit with
      | false =>
          rw [boundedFrom_cons_of_not_digit hc]
          simp [hc]
      | true =>
          rw [boundedFrom_cons hc, Nat.ofDigitChars_cons, List.forall_mem_cons]
          split
          · rename_i hover
            simp only [reduceCtorEq, false_iff]
            rintro ⟨-, rfl, hv⟩
            have hgrows := le_ofDigitChars cs (10 * n + (c.toNat - '0'.toNat))
            omega
          · rename_i hin
            rw [ih (Int.not_lt.1 hin)]
            simp only [hc, true_and]

/-- No bound is passed before the first digit. -/
theorem exists_cons_of_over {n : Nat} (h : (n : Int) ≤ high) {c : Char} {cs digits rest : Text}
    (hsplit : c :: cs = digits ++ rest) (hover : high < Nat.ofDigitChars 10 digits n) :
    ∃ more, digits = c :: more ∧ cs = more ++ rest := by
  cases digits with
  | nil =>
      rw [Nat.ofDigitChars_nil] at hover
      omega
  | cons d more =>
      obtain ⟨rfl, hrest⟩ := List.cons.inj hsplit
      exact ⟨more, rfl, hrest⟩

/-- The reader stops at the first digit with which the number is beyond the bound. -/
theorem boundedFrom_eq_tooHigh_iff {n : Nat} (h : (n : Int) ≤ high) {t : Text} :
    boundedFrom low high false n t = .tooHigh ↔
      ∃ digits rest, t = digits ++ rest ∧ (∀ c ∈ digits, c.isDigit = true) ∧
        high < Nat.ofDigitChars 10 digits n := by
  induction t generalizing n with
  | nil =>
      simp only [boundedFrom, reduceCtorEq, false_iff]
      rintro ⟨digits, rest, hsplit, -, hover⟩
      obtain ⟨rfl, -⟩ := List.append_eq_nil_iff.1 hsplit.symm
      rw [Nat.ofDigitChars_nil] at hover
      omega
  | cons c cs ih =>
      cases hc : c.isDigit with
      | false =>
          rw [boundedFrom_cons_of_not_digit hc]
          simp only [reduceCtorEq, false_iff]
          rintro ⟨digits, rest, hsplit, hdigits, hover⟩
          obtain ⟨more, rfl, -⟩ := exists_cons_of_over h hsplit hover
          rw [hdigits c (by simp)] at hc
          cases hc
      | true =>
          rw [boundedFrom_cons hc]
          split
          · rename_i hover
            refine iff_of_true rfl ⟨[c], cs, rfl, by simpa using hc, ?_⟩
            rw [Nat.ofDigitChars_cons, Nat.ofDigitChars_nil]
            exact hover
          · rename_i hin
            rw [ih (Int.not_lt.1 hin)]
            constructor
            · rintro ⟨digits, rest, rfl, hdigits, hover⟩
              refine ⟨c :: digits, rest, rfl, List.forall_mem_cons.2 ⟨hc, hdigits⟩, ?_⟩
              rw [Nat.ofDigitChars_cons]
              exact hover
            · rintro ⟨digits, rest, hsplit, hdigits, hover⟩
              obtain ⟨more, rfl, rfl⟩ := exists_cons_of_over h hsplit hover
              rw [Nat.ofDigitChars_cons] at hover
              exact ⟨more, rest, rfl, (List.forall_mem_cons.1 hdigits).2, hover⟩

section Zero

variable (hlow : low ≤ 0) (hhigh : 0 ≤ high)

include hlow hhigh

theorem boundedFrom_zero_eq_value_iff (negative : Bool) {t : Text} {v : Int} :
    boundedFrom low high negative 0 t = .value v ↔
      (∀ c ∈ t, c.isDigit = true) ∧ v = signed negative (Nat.ofDigitChars 10 t 0) ∧
        low ≤ v ∧ v ≤ high := by
  cases negative with
  | false =>
      have hread := @boundedFrom_eq_value_iff low high 0 hhigh t v
      rw [Int.natCast_zero] at hread
      rw [hread, signed_false]
      refine and_congr_right fun _ => ?_
      omega
  | true =>
      have hread := @boundedFrom_eq_value_iff (-high) (-low) 0 (by omega) t (-v)
      have hopposite := @boundedFrom_true low high 0 t
      rw [Int.natCast_zero] at hread
      rw [Int.neg_zero] at hopposite
      rw [hopposite, IntReading.opposite_eq_iff, IntReading.opposite, hread, signed_true]
      refine and_congr_right fun _ => ?_
      omega

/-- The reader tells of a number beyond a bound exactly if the first digits are such a number. -/
theorem boundedFrom_zero_eq_over_iff (negative : Bool) {r : IntReading}
    (hr : r = .tooHigh ∨ r = .tooLow) {t : Text} :
    boundedFrom low high negative 0 t = r ↔
      ∃ digits rest, t = digits ++ rest ∧ (∀ c ∈ digits, c.isDigit = true) ∧
        r.TellsOver low high (signed negative (Nat.ofDigitChars 10 digits 0)) := by
  cases negative with
  | false =>
      have hread := @boundedFrom_eq_tooHigh_iff low high 0 hhigh t
      have hnever := @boundedFrom_ne_tooLow low high 0 t
      rw [Int.natCast_zero] at hread hnever
      rcases hr with rfl | rfl
      · exact hread
      · refine iff_of_false hnever ?_
        rintro ⟨digits, rest, -, -, hover⟩
        rw [IntReading.TellsOver, signed_false] at hover
        omega
  | true =>
      have hread := @boundedFrom_eq_tooHigh_iff (-high) (-low) 0 (by omega) t
      have hnever := @boundedFrom_ne_tooLow (-high) (-low) 0 t
      have hopposite := @boundedFrom_true low high 0 t
      rw [Int.natCast_zero] at hread hnever
      rw [Int.neg_zero] at hopposite
      rw [hopposite, IntReading.opposite_eq_iff]
      rcases hr with rfl | rfl
      · refine iff_of_false hnever ?_
        rintro ⟨digits, rest, -, -, hover⟩
        rw [IntReading.TellsOver, signed_true] at hover
        omega
      · rw [IntReading.opposite, hread]
        simp only [IntReading.TellsOver, signed_true, Int.neg_lt_iff]

end Zero

theorem bounded_sign_append {sign : Text} (hsign : IsSign sign) {c : Char}
    (hc : c.isDigit = true) (cs : Text) :
    bounded low high (sign ++ c :: cs) =
      boundedFrom low high (sign == ['-']) 0 (c :: cs) := by
  rcases hsign with rfl | rfl | rfl
  · have hminus : c ≠ '-' := by
      rintro rfl
      exact absurd hc (by decide)
    have hplus : c ≠ '+' := by
      rintro rfl
      exact absurd hc (by decide)
    rw [List.nil_append, bounded]
    · rfl
    all_goals simp [hminus, hplus]
  · rfl
  · rfl

theorem bounded_eq_iff {r : IntReading} (hr : r ≠ .notNumeral) {t : Text} :
    bounded low high t = r ↔
      ∃ sign c cs, t = sign ++ c :: cs ∧ IsSign sign ∧ c.isDigit = true ∧
        boundedFrom low high (sign == ['-']) 0 (c :: cs) = r := by
  have hdigit {negative : Bool} {sofar : Int} {c : Char} {cs : Text}
      (h : boundedFrom low high negative sofar (c :: cs) = r) : c.isDigit = true := by
    by_contra hc
    rw [boundedFrom, digit?, if_neg hc] at h
    exact hr h.symm
  constructor
  · intro h
    unfold bounded at h
    split at h
    · rename_i c cs
      exact ⟨['-'], c, cs, rfl, .inr (.inr rfl), hdigit h, h⟩
    · rename_i c cs
      exact ⟨['+'], c, cs, rfl, .inr (.inl rfl), hdigit h, h⟩
    · exact absurd h.symm hr
    · exact absurd h.symm hr
    · exact absurd h.symm hr
    · rename_i hempty
      obtain ⟨c, cs, rfl⟩ := List.exists_cons_of_ne_nil hempty
      exact ⟨[], c, cs, rfl, .inl rfl, hdigit h, h⟩
  · rintro ⟨sign, c, cs, rfl, hsign, hc, h⟩
    rw [bounded_sign_append hsign hc, h]

section Signs

variable (hlow : low ≤ 0) (hhigh : 0 ≤ high)

include hlow hhigh

/-- The texts that are read as an integer are the numerals of integers within the bounds. -/
theorem bounded_eq_value_iff {t : Text} {v : Int} :
    bounded low high t = .value v ↔ IsNumeral t v ∧ low ≤ v ∧ v ≤ high := by
  have hnumeral : IntReading.value v ≠ .notNumeral := nofun
  rw [bounded_eq_iff hnumeral]
  constructor
  · rintro ⟨sign, c, cs, rfl, hsign, -, h⟩
    obtain ⟨hdigits, hv, hbounds⟩ := (boundedFrom_zero_eq_value_iff hlow hhigh _).1 h
    exact ⟨⟨sign, c :: cs, rfl, hsign, List.cons_ne_nil c cs, hdigits, hv⟩, hbounds⟩
  · rintro ⟨⟨sign, digits, rfl, hsign, hne, hdigits, hv⟩, hbounds⟩
    obtain ⟨c, cs, rfl⟩ := List.exists_cons_of_ne_nil hne
    refine ⟨sign, c, cs, rfl, hsign, hdigits c (by simp), ?_⟩
    exact (boundedFrom_zero_eq_value_iff hlow hhigh _).2 ⟨hdigits, hv, hbounds⟩

/--
The texts of which the reader says that they are beyond a bound are those of which a front is a
numeral beyond it, whatever follows.
-/
theorem bounded_eq_over_iff {r : IntReading} (hr : r = .tooHigh ∨ r = .tooLow) {t : Text} :
    bounded low high t = r ↔
      ∃ front rest n, t = front ++ rest ∧ IsNumeral front n ∧ r.TellsOver low high n := by
  have hnumeral : r ≠ .notNumeral := by
    rintro rfl
    rcases hr with hr | hr <;> cases hr
  rw [bounded_eq_iff hnumeral]
  simp only [boundedFrom_zero_eq_over_iff hlow hhigh _ hr]
  constructor
  · rintro ⟨sign, c, cs, rfl, hsign, -, digits, rest, hsplit, hdigits, hover⟩
    have hne : digits ≠ [] := by
      rintro rfl
      have hzero : ∀ negative, signed negative (Nat.ofDigitChars 10 [] 0) = 0 := by decide
      rw [hzero] at hover
      rcases hr with rfl | rfl
      · exact absurd hover (Int.not_lt.2 hhigh)
      · exact absurd hover (Int.not_lt.2 hlow)
    refine ⟨sign ++ digits, rest, _, ?_, ⟨sign, digits, rfl, hsign, hne, hdigits, rfl⟩, hover⟩
    rw [hsplit, List.append_assoc]
  · rintro ⟨front, rest, n, rfl, ⟨sign, digits, rfl, hsign, hne, hdigits, rfl⟩, hover⟩
    obtain ⟨c, cs, rfl⟩ := List.exists_cons_of_ne_nil hne
    exact ⟨sign, c, cs ++ rest, by simp, hsign, hdigits c (by simp), c :: cs, rest, rfl, hdigits,
      hover⟩

end Signs

end Bounded

/-- The digits of a number, behind as many zeros as the width asks for. -/
def padded (width n : Nat) : Text :=
  List.replicate (width - (ofNat n).length) '0' ++ ofNat n

theorem padded_one {d : Nat} (hd : d < 10) : padded 1 d = [Nat.digitChar d] := by
  rw [padded, ofNat_of_lt hd]
  rfl

theorem padded_append {width n d : Nat} (hwidth : 0 < width) (hd : d < 10) :
    padded (width + 1) (10 * n + d) = padded width n ++ [Nat.digitChar d] := by
  rcases Nat.eq_zero_or_pos n with rfl | hn
  · obtain ⟨width, rfl⟩ := Nat.exists_eq_succ_of_ne_zero hwidth.ne'
    have hzero : ofNat 0 = ['0'] := rfl
    simp [padded, ofNat_of_lt hd, hzero, List.replicate_succ']
  · rw [padded, padded, ofNat_append hn hd, List.length_append, List.length_singleton,
      Nat.add_sub_add_right, List.append_assoc]

end Text

end DirectoryAccess
