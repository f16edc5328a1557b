import DirectoryAccess.Error
import DirectoryAccess.Text.Numeral

/-!
# Clock times

A time of day as the four digits of hour and minute, kept as one number; 2400
is the end of the day and not the same as 0000.
-/

namespace DirectoryAccess

/-- A time of day, a hundred times the hour plus the minute. -/
structure ClockTime where
  hhmm : UInt16
deriving DecidableEq, Repr, Inhabited

namespace ClockTime

def endOfDay : UInt16 :=
  2400

/-- The time with this hour and minute; the end of the day is one more besides those of the day. -/
def ofHourMinute (hour minute : UInt8) : Except ValueFault ClockTime :=
  let hhmm := hour.toUInt16 * 100 + minute.toUInt16
  -- Only the sum is compared with the end of the day, not the hour and the minute.
  if hhmm = endOfDay || (hour < 24 && minute < 60) then .ok ⟨hhmm⟩
  else .error (.badClockTime hour.toNat minute.toNat)

def subject : Subject :=
  .keyword (.bind .timeOfDay)

/-- As `ofHourMinute`, with the error of a time that stands alone. -/
def make (hour minute : UInt8) : Except Error ClockTime :=
  (ofHourMinute hour minute).mapError (.invalidValue subject)

def pair (tens ones : Char) : UInt8 :=
  UInt8.ofNat ((tens.toNat - '0'.toNat) * 10 + (ones.toNat - '0'.toNat))

/-- Reads four digits, white space around them left aside. -/
def read (t : Text) : Except ValueFault ClockTime :=
  let raw := Text.trim t
  match raw with
  | [a, b, c, d] =>
      if raw.all Char.isDigit then ofHourMinute (pair a b) (pair c d)
      else .error (.notFourDigits raw)
  | _ => .error (.notFourDigits raw)

def parse (t : Text) : Except Error ClockTime :=
  (read t).mapError (.invalidValue subject)

def ofClock (hour minute : Nat) : ClockTime :=
  ⟨UInt16.ofNat (hour * 100 + minute)⟩

/-- The time of an instant, in seconds since an epoch at midnight, at an offset in seconds. -/
def ofInstant (epoch offset : Int) : ClockTime :=
  let second := ((epoch + offset) % 86400).toNat
  ofClock (second / 3600) (second / 60 % 60)

def value (t : ClockTime) : Nat :=
  t.hhmm.toNat

def isEndOfDay (t : ClockTime) : Bool :=
  t.hhmm == endOfDay

/-- Writes the number with at least four digits. -/
def text (t : ClockTime) : Text :=
  let digits := Text.ofNat t.value
  List.replicate (4 - digits.length) '0' ++ digits

end ClockTime

end DirectoryAccess
