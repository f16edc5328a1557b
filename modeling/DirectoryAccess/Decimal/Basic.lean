import DirectoryAccess.Text.Numeral

/-!
# Decimal numbers

A decimal number is a sign, a natural number of units and the power of ten that
one unit is worth.  Numerals may have a fraction and an exponent; they are
written back with all their places and without an exponent.
-/

namespace DirectoryAccess

/-- The number `digits * 10 ^ exponent`, negated if it is `negative`. -/
structure Decimal where
  negative : Bool
  digits : Nat
  exponent : Int
deriving DecidableEq, Repr, Inhabited

namespace Text

/-- An optional sign and one or more digits, of any length. -/
def signed? : Text → Option Int
  | '-' :: t => (nat? t).map fun n => -(n : Int)
  | '+' :: t => (nat? t).map fun n => (n : Int)
  | t => (nat? t).map fun n => (n : Int)

end Text

namespace Decimal

/-- The value of a digit in a base up to sixteen. -/
def digitIn? (base : Nat) (c : Char) : Option Nat :=
  let value :=
    if c.isDigit then c.toNat - '0'.toNat
    else if 'a' ≤ c.toLower ∧ c.toLower ≤ 'f' then c.toLower.toNat - 'a'.toNat + 10
    else base
  if value < base then some value else none

def natIn? (base : Nat) : Text → Option Nat
  | [] => none
  | t => t.foldl (fun sofar c => do return (← sofar) * base + (← digitIn? base c)) (some 0)

/-- The exponent at the end of a numeral: nothing, or the letter `e` and an integer. -/
def exponent? : Text → Option Int
  | [] => some 0
  | c :: t => if c.toLower == 'e' then Text.signed? t else none

/-- The fraction behind the whole part: its digits and what follows them. -/
def fraction : Text → Text × Text
  | '.' :: t => (t.takeWhile Char.isDigit, t.dropWhile Char.isDigit)
  | t => ([], t)

/-- Reads a numeral without sign: digits around an optional point, then an optional exponent. -/
def readUnsigned? (negative : Bool) (t : Text) : Option Decimal :=
  let whole := t.takeWhile Char.isDigit
  let parts := fraction (t.dropWhile Char.isDigit)
  match Text.nat? (whole ++ parts.1), exponent? parts.2 with
  | some digits, some e => some ⟨negative, digits, e - parts.1.length⟩
  | _, _ => none

def read? : Text → Option Decimal
  | '-' :: t => readUnsigned? true t
  | '+' :: t => readUnsigned? false t
  | t => readUnsigned? false t

/-- Writes a digit sequence with its last `places` digits behind a point. -/
def pointed (places : Nat) (ds : Text) : Text :=
  let padded := List.replicate (places + 1 - ds.length) '0' ++ ds
  padded.take (padded.length - places) ++ '.' :: padded.drop (padded.length - places)

def text (d : Decimal) : Text :=
  let ds := Text.ofNat d.digits
  let size :=
    match d.exponent with
    | .ofNat n => ds ++ List.replicate n '0'
    | .negSucc n => pointed (n + 1) ds
  if d.negative then '-' :: size else size

end Decimal

end DirectoryAccess
