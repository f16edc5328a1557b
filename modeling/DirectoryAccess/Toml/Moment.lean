import DirectoryAccess.Text.Numeral

/-!
# Dates and times of a TOML document

A moment is a date, a time of day, or both, then perhaps with the distance from
universal time.  It is kept as its text in one spelling: a `T` before the time,
a `Z` for no distance, at most nine places of a second and no zeros behind them.
-/

namespace DirectoryAccess

namespace Toml

/-- A number written with exactly `count` digits at the front of a text. -/
def digits? (count : Nat) (t : Text) : Option (Nat × Text) :=
  let ds := t.take count
  if ds.length = count then (Text.nat? ds).map fun n => (n, t.drop count) else none

/-- A number written with two digits behind a mark, if it lies between two bounds. -/
def pair? (mark : Char) (low high : Nat) : Text → Option (Text × Text)
  | c :: t => do
      let (n, rest) ← digits? 2 t
      if c = mark ∧ low ≤ n ∧ n ≤ high then some (mark :: t.take 2, rest) else none
  | [] => none

def monthLength (year month : Nat) : Nat :=
  if month = 2 then
    if year % 4 = 0 ∧ (year % 100 ≠ 0 ∨ year % 400 = 0) then 29 else 28
  else if month ∈ [4, 6, 9, 11] then 30
  else 31

def date? (t : Text) : Option (Text × Text) := do
  let (year, rest) ← digits? 4 t
  let (month, rest) ← pair? '-' 1 12 rest
  let (day, rest) ← pair? '-' 1 (monthLength year ((Text.nat? (month.drop 1)).getD 0)) rest
  return (t.take 4 ++ month ++ day, rest)

/-- Reads the places of a second, which may be missing. -/
def places? : Text → Option (Text × Text)
  | '.' :: t => do
      let (places, rest) ← Text.run? Char.isDigit t
      let kept := ((places.take 9).reverse.dropWhile (· == '0')).reverse
      return (if kept.isEmpty then [] else '.' :: kept, rest)
  | t => some ([], t)

def time? (mark : Char) (t : Text) : Option (Text × Text) := do
  let (hour, rest) ← pair? mark 0 23 t
  let (minute, rest) ← pair? ':' 0 59 rest
  let (second, rest) ← pair? ':' 0 60 rest
  let (places, rest) ← places? rest
  return (hour.drop 1 ++ minute ++ second ++ places, rest)

/-- Reads the distance from universal time, which may be missing. -/
def distance? : Text → Option Text
  | [] => some []
  | ['Z'] => some ['Z']
  | ['z'] => some ['Z']
  | sign :: t => do
      let (hour, rest) ← pair? sign 0 23 (sign :: t)
      let (minute, rest) ← pair? ':' 0 59 rest
      if rest ≠ [] then none
      else if sign = '+' then some (hour ++ minute)
      else if sign = '-' then
        some (if hour ++ minute = "-00:00".toList then "+00:00".toList else hour ++ minute)
      else none

def isDate (t : Text) : Bool :=
  match date? t with
  | some (_, []) => true
  | _ => false

def moment? (t : Text) : Option Text :=
  match date? t with
  | some (date, []) => some date
  | some (date, mark :: rest) =>
      if mark ∈ ['T', 't', ' '] then do
        let (time, rest) ← time? mark (mark :: rest)
        let distance ← distance? rest
        return date ++ 'T' :: time ++ distance
      else none
  | none =>
      match time? 'T' ('T' :: t) with
      | some (time, []) => some time
      | _ => none

end Toml

end DirectoryAccess
