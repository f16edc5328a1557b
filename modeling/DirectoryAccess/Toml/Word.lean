import DirectoryAccess.Text.Split
import DirectoryAccess.Toml.Item
import DirectoryAccess.Toml.Moment

/-!
# Bare words of a TOML document

What is written without quotes or brackets: truth values, numbers and moments.
A single underscore may stand between two digits; the whole part of a number in
base ten has no zero in front; an integer fits into 64 bits.
-/

namespace DirectoryAccess

namespace Toml

def isWordChar (c : Char) : Bool :=
  c.isAlphanum || "+-_.:".toList.contains c

/-- One or more digits of a class, without the underscores between them. -/
def group? (isDigit : Char → Bool) (t : Text) : Option Text :=
  let parts := Text.splitOn '_' t
  if parts.all fun part => !part.isEmpty && part.all isDigit then some parts.flatten else none

def whole? (t : Text) : Option Text := do
  let ds ← group? Char.isDigit t
  if ds.length > 1 ∧ ds.head? = some '0' then none else some ds

/-- The value of digits in a base that is written in front of them. -/
def based? (base : Nat) (t : Text) : Option Int := do
  let inBase (c : Char) : Bool := (Decimal.digitIn? base c).isSome
  let ds ← group? inBase t
  let n ← Decimal.natIn? base ds
  if n < Nat.pow 2 63 then some n else none

/-- Cuts a sign off the front, a missing one counting as plus: whether it is a minus,
and the rest. -/
def cutSign : Text → Bool × Text
  | '-' :: t => (true, t)
  | '+' :: t => (false, t)
  | t => (false, t)

def integer? (t : Text) : Option Int :=
  match t with
  | '0' :: 'x' :: ds => based? 16 ds
  | '0' :: 'o' :: ds => based? 8 ds
  | '0' :: 'b' :: ds => based? 2 ds
  | _ => do
      let (negative, size) := cutSign t
      let n ← Text.nat? (← whole? size)
      if negative then if n ≤ Nat.pow 2 63 then some (-(n : Int)) else none
      else if n < Nat.pow 2 63 then some (n : Int)
      else none

def inGroup (c : Char) : Bool :=
  c.isDigit || c == '_'

/-- The places behind the point, which may be missing, and what follows them. -/
def realPlaces? : Text → Option (Text × Text)
  | '.' :: t => (group? Char.isDigit (t.takeWhile inGroup)).map fun ds => (ds, t.dropWhile inGroup)
  | t => some ([], t)

def realExponent? : Text → Option Int
  | [] => some 0
  | c :: t => do
      let (negative, size) := cutSign t
      let n ← Text.nat? (← group? Char.isDigit size)
      if c.toLower = 'e' then some (if negative then -(n : Int) else (n : Int)) else none

/-- Reads a number with a point or an exponent, if a double can hold it. -/
def real? (t : Text) : Option Double := do
  let (negative, size) := cutSign t
  if size = "inf".toList then return .infinite negative
  if size = "nan".toList then return .notNumber
  let ds ← whole? (size.takeWhile inGroup)
  let behind := size.dropWhile inGroup
  let (places, rest) ← realPlaces? behind
  let e ← realExponent? rest
  let digits ← Text.nat? (ds ++ places)
  let x := Double.ofDecimal ⟨negative, digits, e - places.length⟩
  if behind.isEmpty || !x.isFinite then none else some x

def word? (t : Text) : Option Item :=
  if t = "true".toList then some (.truth true)
  else if t = "false".toList then some (.truth false)
  else
    ((integer? t).map Item.integer).or
      (((real? t).map Item.real).or ((moment? t).map Item.moment))

end Toml

end DirectoryAccess
