import DirectoryAccess.Text.Basic

/-!
# Text for terminals

Colours are switched on and off by control sequences.  Stripping a text drops
these and all other control sequences and strings together with every control
character but the line feed.
-/

namespace DirectoryAccess

namespace Terminal

inductive Colour where
  | red
  | green
deriving DecidableEq, Repr

def Colour.code : Colour → Text
  | red => "31".toList
  | green => "32".toList

/-- The control sequence with these parameters that sets how characters look. -/
def look (parameters : Text) : Text :=
  '\x1b' :: '[' :: parameters ++ ['m']

def paint (coloured : Bool) (c : Colour) (t : Text) : Text :=
  if coloured then look c.code ++ t ++ look ['0'] else t

/-- Where in a control sequence or control string a text stands. -/
inductive Mode where
  | ground
  | escape
  /-- Behind an escape character and what announces its final character. -/
  | escapeFinal
  | sequence
  /-- In front of the parameters of a device control string. -/
  | device
  | deviceParameters
  | deviceFinal
  /-- In a control string that goes on up to its terminator. -/
  | string
  /-- In an operating system command, which a bell ends as well. -/
  | command
deriving DecidableEq, Repr, Inhabited

def within (low high : Nat) (c : Char) : Bool :=
  low ≤ c.toNat && c.toNat ≤ high

/-- Holds for a character of which one byte in UTF-8 is the terminator of control strings. -/
def holdsTerminator (c : Char) : Bool :=
  0x80 ≤ c.toNat && (String.utf8EncodeChar c).contains 0x9C

/-- The mode behind a character other than those that end or open a sequence everywhere. -/
def Mode.step (m : Mode) (c : Char) : Mode :=
  match m with
  | ground => ground
  | escape =>
      if c == '[' then sequence
      else if c == ']' then command
      else if c == 'P' then device
      else if c == 'X' || c == '^' || c == '_' then string
      else if within 0x20 0x2F c then escapeFinal
      else if within 0x30 0x7E c then ground
      else escape
  | escapeFinal => if within 0x30 0x7E c then ground else escapeFinal
  | sequence => if within 0x40 0x7E c then ground else sequence
  | device =>
      if within 0x20 0x2F c then deviceFinal
      else if within 0x30 0x3F c then deviceParameters
      else if within 0x40 0x7E c then string
      else device
  | deviceParameters =>
      if within 0x20 0x2F c then deviceFinal
      else if within 0x3C 0x7E c then string
      else deviceParameters
  | deviceFinal => if within 0x30 0x7E c then string else deviceFinal
  | string => if holdsTerminator c then ground else string
  | command => if c == '\x07' then ground else command

def Mode.next (m : Mode) (c : Char) : Mode :=
  if c == '\x1b' then escape
  else if c == '\x18' || c == '\x1a' then ground
  else m.step c

def Mode.keeps (m : Mode) (c : Char) : Bool :=
  match m with
  | ground => c == '\n' || 0x20 ≤ c.toNat
  | escape => c == '\n'
  | escapeFinal => c == '\n'
  | sequence => c == '\n'
  | _ => false

def stripFrom (m : Mode) : Text → Text
  | [] => []
  | c :: cs => if m.keeps c then c :: stripFrom (m.next c) cs else stripFrom (m.next c) cs

/-- Drops control sequences, control strings and control characters other than the line feed. -/
def strip (t : Text) : Text :=
  stripFrom .ground t

end Terminal

end DirectoryAccess
