import DirectoryAccess.Proofs.Outcome.Failing
import DirectoryAccess.Proofs.Value.Bind

/-!
# Times of the clock

A time is kept as one number, a hundred times the hour plus the minute, and the number of the
end of the day is accepted from whatever hour and minute it comes.  Besides the times of the
clock these are an hour too early with a hundred minutes, and two with two hundred.  Texts and
clocks give no more than two digits for the minute, and so only times of the clock.
-/

namespace DirectoryAccess

namespace ClockTime

/-- An hour and a minute of the day, or the end of the day. -/
def IsTime (hour minute : Nat) : Prop :=
  (hour < 24 ∧ minute < 60) ∨ (hour = 24 ∧ minute = 0)

/-- An hour and minutes beyond an hour that make the number of the end of the day. -/
def IsOverlong (hour minute : Nat) : Prop :=
  (hour = 23 ∧ minute = 100) ∨ (hour = 22 ∧ minute = 200)

section HourMinute

variable {hour minute : UInt8}

theorem toNat_hhmm (hour minute : UInt8) :
    (hour.toUInt16 * 100 + minute.toUInt16).toNat = 100 * hour.toNat + minute.toNat := by
  have hhour := hour.toNat_lt
  have hminute := minute.toNat_lt
  have hhundred : (100 : UInt16).toNat = 100 := rfl
  rw [UInt16.toNat_add, UInt16.toNat_mul, UInt8.toNat_toUInt16, UInt8.toNat_toUInt16, hhundred]
  omega

theorem isTime_or_isOverlong_iff :
    IsTime hour.toNat minute.toNat ∨ IsOverlong hour.toNat minute.toNat ↔
      (hour.toUInt16 * 100 + minute.toUInt16 = endOfDay ∨ (hour < 24 ∧ minute < 60)) := by
  have hminute := minute.toNat_lt
  have hend : endOfDay.toNat = 2400 := rfl
  rw [← UInt16.toNat_inj, toNat_hhmm, hend, UInt8.lt_iff_toNat_lt, UInt8.lt_iff_toNat_lt]
  have hday : (24 : UInt8).toNat = 24 := rfl
  have hhour : (60 : UInt8).toNat = 60 := rfl
  rw [hday, hhour]
  unfold IsTime IsOverlong
  omega

theorem ofHourMinute_eq_ok_iff {c : ClockTime} :
    ofHourMinute hour minute = .ok c ↔
      (IsTime hour.toNat minute.toNat ∨ IsOverlong hour.toNat minute.toNat) ∧
        c.value = 100 * hour.toNat + minute.toNat := by
  obtain ⟨hhmm⟩ := c
  rw [isTime_or_isOverlong_iff, ← toNat_hhmm, value, UInt16.toNat_inj]
  simp only [ofHourMinute, Bool.or_eq_true, Bool.and_eq_true, decide_eq_true_eq]
  split
  · rename_i haccepted
    simp only [Except.ok.injEq, mk.injEq, haccepted, true_and]
    exact eq_comm
  · rename_i hrefused
    simp only [reduceCtorEq, hrefused, false_and]

theorem ofHourMinute_eq_error_iff {e : ValueFault} :
    ofHourMinute hour minute = .error e ↔
      ¬(IsTime hour.toNat minute.toNat ∨ IsOverlong hour.toNat minute.toNat) ∧
        e = .badClockTime hour.toNat minute.toNat := by
  rw [isTime_or_isOverlong_iff]
  simp only [ofHourMinute, Bool.or_eq_true, Bool.and_eq_true, decide_eq_true_eq]
  split
  · rename_i haccepted
    simp only [reduceCtorEq, haccepted, not_true_eq_false, false_and]
  · rename_i hrefused
    simp only [Except.error.injEq, hrefused, not_false_eq_true, true_and]
    exact eq_comm

theorem make_eq_ok_iff {c : ClockTime} :
    make hour minute = .ok c ↔
      (IsTime hour.toNat minute.toNat ∨ IsOverlong hour.toNat minute.toNat) ∧
        c.value = 100 * hour.toNat + minute.toNat :=
  Outcome.mapError_eq_ok.trans ofHourMinute_eq_ok_iff

theorem make_eq_error_iff {e : Error} :
    make hour minute = .error e ↔
      ¬(IsTime hour.toNat minute.toNat ∨ IsOverlong hour.toNat minute.toNat) ∧
        e = .invalidValue subject (.badClockTime hour.toNat minute.toNat) := by
  rw [make, Outcome.mapError_eq_error]
  simp only [ofHourMinute_eq_error_iff]
  constructor
  · rintro ⟨_, ⟨hrefused, rfl⟩, rfl⟩
    exact ⟨hrefused, rfl⟩
  · rintro ⟨hrefused, rfl⟩
    exact ⟨_, ⟨hrefused, rfl⟩, rfl⟩

/-- Only the end of the day is made from more than one hour and minute. -/
theorem eq_or_endOfDay_of_make {hour' minute' : UInt8} {c : ClockTime}
    (h : make hour minute = .ok c) (h' : make hour' minute' = .ok c) :
    (hour = hour' ∧ minute = minute') ∨ c = ⟨endOfDay⟩ := by
  obtain ⟨haccepted, hvalue⟩ := make_eq_ok_iff.1 h
  obtain ⟨haccepted', hvalue'⟩ := make_eq_ok_iff.1 h'
  have hsame : (hour.toNat = hour'.toNat ∧ minute.toNat = minute'.toNat) ∨ c.value = 2400 := by
    unfold IsTime IsOverlong at haccepted haccepted'
    omega
  rcases hsame with ⟨hhour, hminute⟩ | hend
  · exact .inl ⟨UInt8.toNat_inj.1 hhour, UInt8.toNat_inj.1 hminute⟩
  · exact .inr (congrArg mk (UInt16.toNat_inj.1 hend))

end HourMinute

/-- The text is the two digits of the hour and the two digits of the minute. -/
def Spells (raw : Text) (hour minute : Nat) : Prop :=
  hour < 100 ∧ minute < 100 ∧ raw = Text.padded 2 hour ++ Text.padded 2 minute

theorem padded_two {i j : Nat} (hi : i < 10) (hj : j < 10) :
    Text.padded 2 (10 * i + j) = [Nat.digitChar i, Nat.digitChar j] := by
  rw [Text.padded_append (by decide) hj, Text.padded_one hi]
  rfl

theorem exists_digits {n : Nat} (hn : n < 100) : ∃ i j, i < 10 ∧ j < 10 ∧ n = 10 * i + j :=
  ⟨n / 10, n % 10, by omega, by omega, by omega⟩

theorem pair_digitChar {i j : Nat} (hi : i < 10) (hj : j < 10) :
    pair (Nat.digitChar i) (Nat.digitChar j) = UInt8.ofNat (10 * i + j) := by
  rw [← UInt8.toNat_inj, toNat_pair hi hj, UInt8.toNat_ofNat']
  omega

theorem read_of_spells {t : Text} {hour minute : Nat} (h : Spells (Text.trim t) hour minute) :
    read t = ofHourMinute (UInt8.ofNat hour) (UInt8.ofNat minute) := by
  obtain ⟨hhour, hminute, htrim⟩ := h
  obtain ⟨i, j, hi, hj, rfl⟩ := exists_digits hhour
  obtain ⟨k, l, hk, hl, rfl⟩ := exists_digits hminute
  rw [padded_two hi hj, padded_two hk hl, List.cons_append, List.cons_append,
    List.nil_append] at htrim
  have hall : [Nat.digitChar i, Nat.digitChar j, Nat.digitChar k, Nat.digitChar l].all
      Char.isDigit = true := by
    simp [hi, hj, hk, hl]
  simp only [read, htrim, hall, if_true, pair_digitChar hi hj, pair_digitChar hk hl]

theorem exists_spells {p q r s : Char} (h : [p, q, r, s].all Char.isDigit = true) :
    ∃ hour minute, Spells [p, q, r, s] hour minute := by
  simp only [List.all_cons, List.all_nil, Bool.and_true, Bool.and_eq_true] at h
  obtain ⟨hp, hq, hr, hs⟩ := h
  obtain ⟨i, hi, rfl⟩ := Text.exists_digitChar hp
  obtain ⟨j, hj, rfl⟩ := Text.exists_digitChar hq
  obtain ⟨k, hk, rfl⟩ := Text.exists_digitChar hr
  obtain ⟨l, hl, rfl⟩ := Text.exists_digitChar hs
  refine ⟨10 * i + j, 10 * k + l, by omega, by omega, ?_⟩
  rw [padded_two hi hj, padded_two hk hl]
  rfl

theorem read_of_not_spells {t : Text} (h : ¬∃ hour minute, Spells (Text.trim t) hour minute) :
    read t = .error (.notFourDigits (Text.trim t)) := by
  simp only [read]
  split
  · rename_i p q r s htrim
    split
    · rename_i hdigits
      rw [htrim] at hdigits h
      exact absurd (exists_spells hdigits) h
    · rw [htrim]
  · rfl

/-- Two digits are too few for the minutes that are accepted beyond an hour. -/
theorem Spells.isTime_iff {raw : Text} {hour minute : Nat} (h : Spells raw hour minute) :
    IsTime hour minute ∨ IsOverlong hour minute ↔ IsTime hour minute := by
  obtain ⟨-, hminute, -⟩ := h
  unfold IsTime IsOverlong
  omega

theorem Spells.toNat {raw : Text} {hour minute : Nat} (h : Spells raw hour minute) :
    (UInt8.ofNat hour).toNat = hour ∧ (UInt8.ofNat minute).toNat = minute := by
  obtain ⟨hhour, hminute, -⟩ := h
  rw [UInt8.toNat_ofNat', UInt8.toNat_ofNat']
  omega

/-- A text is read if it is four digits of which a time is made, and gives that time. -/
theorem parse_eq_ok_iff {t : Text} {c : ClockTime} :
    parse t = .ok c ↔
      ∃ hour minute : UInt8, Spells (Text.trim t) hour.toNat minute.toNat ∧
        IsTime hour.toNat minute.toNat ∧ make hour minute = .ok c := by
  rw [parse, Outcome.mapError_eq_ok]
  constructor
  · intro h
    by_cases hspells : ∃ hour minute, Spells (Text.trim t) hour minute
    · obtain ⟨hour, minute, hspells⟩ := hspells
      rw [read_of_spells hspells] at h
      obtain ⟨hhour, hminute⟩ := hspells.toNat
      have haccepted := (ofHourMinute_eq_ok_iff.1 h).1
      rw [hhour, hminute, hspells.isTime_iff] at haccepted
      refine ⟨UInt8.ofNat hour, UInt8.ofNat minute, ?_, ?_, Outcome.mapError_eq_ok.2 h⟩
      · rwa [hhour, hminute]
      · rwa [hhour, hminute]
    · rw [read_of_not_spells hspells] at h
      cases h
  · rintro ⟨hour, minute, hspells, -, hmake⟩
    rw [read_of_spells hspells, UInt8.ofNat_toNat, UInt8.ofNat_toNat]
    exact Outcome.mapError_eq_ok.1 hmake

theorem value_ofClock {hour minute : Nat} (hhour : hour < 24) (hminute : minute < 60) :
    (ofClock hour minute).value = 100 * hour + minute := by
  rw [ofClock, value, UInt16.toNat_ofNat']
  omega

theorem make_eq_ofClock {hour minute : UInt8} (hhour : hour.toNat < 24)
    (hminute : minute.toNat < 60) :
    make hour minute = .ok (ofClock hour.toNat minute.toNat) :=
  make_eq_ok_iff.2 ⟨.inl (.inl ⟨hhour, hminute⟩), value_ofClock hhour hminute⟩

/--
A time is made from the hours and minutes of the clock, and the end of the day from overlong
minutes as well; other times come from one hour and minute only.  A text is read exactly if it is
the four digits of a time of the clock, which it is written with again, and a clock gives the time
that is made from what it shows.
-/
theorem times_are_exact_but_overlong (hour minute : UInt8) (t : Text) :
    (∀ c, make hour minute = .ok c ↔
      (IsTime hour.toNat minute.toNat ∨ IsOverlong hour.toNat minute.toNat) ∧
        c.value = 100 * hour.toNat + minute.toNat) ∧
    (∀ e, make hour minute = .error e ↔
      ¬(IsTime hour.toNat minute.toNat ∨ IsOverlong hour.toNat minute.toNat) ∧
        e = .invalidValue subject (.badClockTime hour.toNat minute.toNat)) ∧
    (∀ hour' minute' c, make hour minute = .ok c → make hour' minute' = .ok c →
      (hour = hour' ∧ minute = minute') ∨ c = ⟨endOfDay⟩) ∧
    (∀ c, parse t = .ok c ↔
      ∃ hour' minute' : UInt8, Spells (Text.trim t) hour'.toNat minute'.toNat ∧
        IsTime hour'.toNat minute'.toNat ∧ make hour' minute' = .ok c) ∧
    (∀ c, parse t = .ok c → c.text = Text.trim t) ∧
    (hour.toNat < 24 → minute.toNat < 60 →
      make hour minute = .ok (ofClock hour.toNat minute.toNat)) := by
  refine ⟨fun _ => make_eq_ok_iff, fun _ => make_eq_error_iff,
    fun _ _ _ => eq_or_endOfDay_of_make, fun _ => parse_eq_ok_iff, fun c h => ?_,
    make_eq_ofClock⟩
  exact text_of_read (Outcome.mapError_eq_ok.1 h)

theorem times_are_exact_but_overlong_of_lastMinute :
    make 23 59 = .ok (ofClock 23 59) ∧ parse " 2359\t".toList = .ok (ofClock 23 59) ∧
      (ofClock 23 59).text = Text.trim " 2359\t".toList ∧
      ∀ hour minute : UInt8, make hour minute = .ok (ofClock 23 59) → 23 = hour ∧ 59 = minute := by
  obtain ⟨-, -, hsame, -, htext, hclock⟩ := times_are_exact_but_overlong 23 59 " 2359\t".toList
  have hmake : make 23 59 = .ok (ofClock 23 59) := hclock (by decide) (by decide)
  have hparse : parse " 2359\t".toList = .ok (ofClock 23 59) := rfl
  refine ⟨hmake, hparse, htext _ hparse, fun hour minute h => ?_⟩
  exact (hsame hour minute _ hmake h).resolve_right (by decide)

/-- An hour before midnight a hundred minutes are taken for the end of the day. -/
theorem hundred_minutes_end_day :
    make 23 100 = .ok ⟨endOfDay⟩ ∧ make 24 0 = .ok ⟨endOfDay⟩ ∧ ¬IsTime 23 100 := by
  refine ⟨rfl, rfl, ?_⟩
  unfold IsTime
  omega

end ClockTime

end DirectoryAccess
