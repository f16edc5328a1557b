import DirectoryAccess.Text.Basic

/-!
# Reading numerals

Numerals are ASCII decimal digits, after an optional sign.  A bounded reader
works from left to right and stops at the first digit with which the number
leaves its range, so that what follows that digit is never looked at.
-/

namespace DirectoryAccess

namespace Text

def digit? (c : Char) : Option Nat :=
  if c.isDigit then some (c.toNat - '0'.toNat) else none

def natFrom? (sofar : Nat) : Text → Option Nat
  | [] => some sofar
  | c :: cs =>
      match digit? c with
      | some d => natFrom? (sofar * 10 + d) cs
      | none => none

/-- One or more digits and nothing else. -/
def nat? : Text → Option Nat
  | [] => none
  | t => natFrom? 0 t

/-- A numeral without sign or with a plus sign. -/
def unsigned? : Text → Option Nat
  | '+' :: t => nat? t
  | t => nat? t

/-- What a bounded reader of integers finds. -/
inductive IntReading where
  | value (n : Int)
  | tooHigh
  | tooLow
  | notNumeral
deriving DecidableEq, Repr

/-- Reads on after `sofar`, towards the bound on the side of the sign. -/
def boundedFrom (low high : Int) (negative : Bool) (sofar : Int) : Text → IntReading
  | [] => .value sofar
  | c :: cs =>
      match digit? c with
      | none => .notNumeral
      | some d =>
          if negative then
            let next := sofar * 10 - d
            if next < low then .tooLow else boundedFrom low high negative next cs
          else
            let next := sofar * 10 + d
            if high < next then .tooHigh else boundedFrom low high negative next cs

/-- Reads an optional sign and one or more digits as an integer from `low` to `high`. -/
def bounded (low high : Int) : Text → IntReading
  | '-' :: c :: cs => boundedFrom low high true 0 (c :: cs)
  | '+' :: c :: cs => boundedFrom low high false 0 (c :: cs)
  | ['-'] => .notNumeral
  | ['+'] => .notNumeral
  | [] => .notNumeral
  | t => boundedFrom low high false 0 t

def int64 (t : Text) : IntReading :=
  bounded (-9223372036854775808) 9223372036854775807 t

end Text

end DirectoryAccess
