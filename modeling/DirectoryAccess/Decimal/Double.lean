import DirectoryAccess.Decimal.Basic

/-!
# Double precision

Binary numbers with a significand of 53 bits.  A numeral stands for the number
of this kind that is nearest to its value, the even one of two; a number is
written with the fewest digits that stand for it, and with those nearest to it
among them.  All of it is exact arithmetic on natural numbers.
-/

namespace DirectoryAccess

/-- A number in double precision: `significand * 2 ^ scale`, an infinity, or no number. -/
inductive Double where
  | finite (negative : Bool) (significand : Nat) (scale : Int)
  | infinite (negative : Bool)
  | notNumber
deriving DecidableEq, Repr, Inhabited

namespace Double

/-- The numerator and the denominator of a power of `base`. -/
def power (base : Nat) : Int → Nat × Nat
  | .ofNat n => (Nat.pow base n, 1)
  | .negSucc n => (1, Nat.pow base (n + 1))

/-- The natural number nearest to a quotient, the even one of two. -/
def roundEven (num den : Nat) : Nat :=
  let quotient := num / den
  let twice := 2 * (num % den)
  if twice > den || (twice == den && quotient % 2 == 1) then quotient + 1 else quotient

/-- The largest `e` with `2 ^ e ≤ num / den`. -/
def floorLog (num den : Nat) : Int :=
  let guess : Int := (num.log2 : Int) - (den.log2 : Int)
  let unit := power 2 guess
  if unit.1 * den ≤ num * unit.2 then guess else guess - 1

/-- The number nearest to the quotient of two positive numbers. -/
def ofQuotient (negative : Bool) (num den : Nat) : Double :=
  let scale := max (floorLog num den - 52) (-1074)
  let unit := power 2 scale
  let significand := roundEven (num * unit.2) (den * unit.1)
  let (significand, scale) :=
    if significand == Nat.pow 2 53 then (Nat.pow 2 52, scale + 1) else (significand, scale)
  if 971 < scale then infinite negative else finite negative significand scale

/--
The number nearest to a decimal number.  Values from `10 ^ 400` on are infinite
and those below `10 ^ (-400)` vanish, whatever their digits.
-/
def ofDecimal (d : Decimal) : Double :=
  let size := d.exponent + (Text.ofNat d.digits).length
  if d.digits == 0 || size < -400 then finite d.negative 0 0
  else if 400 < size then infinite d.negative
  else
    let unit := power 10 d.exponent
    ofQuotient d.negative (d.digits * unit.1) unit.2

def word? (negative : Bool) (t : Text) : Option Double :=
  let folded := Text.lower t
  if folded == "inf".toList || folded == "infinity".toList then some (infinite negative)
  else if folded == "nan".toList then some notNumber
  else none

def signedWord? : Text → Option Double
  | '-' :: t => word? true t
  | '+' :: t => word? false t
  | t => word? false t

def read? (t : Text) : Option Double :=
  match Decimal.read? t with
  | some d => some (ofDecimal d)
  | none => signedWord? t

def isFinite : Double → Bool
  | finite _ _ _ => true
  | _ => false

/--
The multiple of `10 ^ k` that stands for `significand * 2 ^ scale`, counted in
such units, if there is one: of the two next to the value the nearer, and the
larger of two as near, goes first.
-/
def multiple? (significand : Nat) (scale k : Int) : Option Nat :=
  let two := power 2 (scale - 2)
  let ten := power 10 k
  let num := two.1 * ten.2
  let den := two.2 * ten.1
  let below := if significand == Nat.pow 2 52 && -1074 < scale then 1 else 2
  let low := (4 * significand - below) * num
  let high := (4 * significand + 2) * num
  let standsFor (c : Nat) : Bool :=
    if significand % 2 == 0 then low ≤ c * den && c * den ≤ high
    else low < c * den && c * den < high
  let value := 4 * significand * num
  let floor := value / den
  let nearer := if 2 * value < (2 * floor + 1) * den then floor else floor + 1
  let farther := if nearer == floor then floor + 1 else floor
  if standsFor nearer then some nearer
  else if standsFor farther then some farther
  else none

/-- The powers of ten of which a multiple is tried, the largest first. -/
def units : List Int :=
  (List.range 640).map fun (i : Nat) => 309 - (i : Int)

/-- The decimal number with the fewest digits that stands for `significand * 2 ^ scale`. -/
def shortest (negative : Bool) (significand : Nat) (scale : Int) : Decimal :=
  if significand == 0 then ⟨negative, 0, 0⟩
  else
    (units.findSome? fun k => (multiple? significand scale k).map fun c => ⟨negative, c, k⟩).getD
      default

def text : Double → Text
  | finite negative significand scale => (shortest negative significand scale).text
  | infinite negative => if negative then "-inf".toList else "inf".toList
  | notNumber => "NaN".toList

end Double

end DirectoryAccess
