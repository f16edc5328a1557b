import DirectoryAccess.BitSet
import DirectoryAccess.Error
import DirectoryAccess.Journal
import DirectoryAccess.Text.Numeral
import DirectoryAccess.Text.Split

/-!
# Days of the week

The value of the keyword that names days.  Words that name no day are passed
over with an entry in the journal, as long as one word does.
-/

namespace DirectoryAccess

inductive Day where
  | sunday
  | monday
  | tuesday
  | wednesday
  | thursday
  | friday
  | saturday
deriving DecidableEq, Repr, Inhabited

namespace Day

def all : List Day :=
  [sunday, monday, tuesday, wednesday, thursday, friday, saturday]

/-- The position of a day in the week, from 0. -/
def position : Day → Nat
  | sunday => 0
  | monday => 1
  | tuesday => 2
  | wednesday => 3
  | thursday => 4
  | friday => 5
  | saturday => 6

def abbreviation : Day → Text
  | sunday => "Sun".toList
  | monday => "Mon".toList
  | tuesday => "Tue".toList
  | wednesday => "Wed".toList
  | thursday => "Thu".toList
  | friday => "Fri".toList
  | saturday => "Sat".toList

def fullName : Day → Text
  | sunday => "sunday".toList
  | monday => "monday".toList
  | tuesday => "tuesday".toList
  | wednesday => "wednesday".toList
  | thursday => "thursday".toList
  | friday => "friday".toList
  | saturday => "saturday".toList

/-- The names under which a day is read, in lower case. -/
def spellings : Day → List Text
  | tuesday => [fullName tuesday, "tue".toList, "tues".toList]
  | thursday => [fullName thursday, "thu".toList, "thur".toList, "thurs".toList]
  | d => [fullName d, (fullName d).take 3]

/-- The day named by a text: a name, or a number from 1 for Sunday to 7 for Saturday. -/
def ofName? (t : Text) : Option Day :=
  let name := Text.lower (Text.trim t)
  match Text.unsigned? name with
  | some 0 => none
  | some (n + 1) => all[n]?
  | none => all.find? fun d => d.spellings.contains name

end Day

structure DaySet where
  set : BitSet 8
deriving DecidableEq, Repr, Inhabited

namespace DaySet

def empty : DaySet :=
  ⟨.empty⟩

def insert (s : DaySet) (d : Day) : DaySet :=
  ⟨s.set.insert d.position⟩

def erase (s : DaySet) (d : Day) : DaySet :=
  ⟨s.set.erase d.position⟩

def contains (s : DaySet) (d : Day) : Bool :=
  s.set.contains d.position

def ofList (ds : List Day) : DaySet :=
  ds.foldl insert empty

def days (s : DaySet) : List Day :=
  Day.all.filter s.contains

/-- Holds if no position is set, be it that of a day or not. -/
def isEmpty (s : DaySet) : Bool :=
  s.set.isEmpty

/-- Reads names of days separated by commas and passes over the words that are none. -/
def read (raw : Text) : Except ValueFault DaySet :=
  let result := ofList ((Text.commaEntries raw).filterMap Day.ofName?)
  if result.isEmpty then .error (.noDay raw) else .ok result

def parse (raw : Text) : Except Error DaySet :=
  (read raw).mapError (.invalidValue (.keyword (.bind .dayOfWeek)))

def entries (raw : Text) : List Entry :=
  ((Text.commaEntries raw).filter fun word => (Day.ofName? word).isNone).map fun word =>
    ⟨.debug, "skipping unrecognized day token `".toList ++ word ++ "`".toList⟩

def text (s : DaySet) : Text :=
  Text.join [','] (s.days.map Day.abbreviation)

end DaySet

end DirectoryAccess
