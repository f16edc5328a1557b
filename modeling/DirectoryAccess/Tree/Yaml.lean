import DirectoryAccess.Decimal.Double
import DirectoryAccess.Tree.Json

/-!
# Trees as YAML

The block form: a field or an item to a line, records two columns further in,
the items of a list in the column of its name.  A text is written plain where
that reads back as the same text, else between single quotes, and between double
quotes where it holds a character that has to be escaped.
-/

namespace DirectoryAccess

namespace Yaml

/-- The words that stand for nothing or for a truth value. -/
def words : List Text :=
  ["null", "Null", "NULL", "~", "true", "True", "TRUE", "false", "False", "FALSE"].map
    String.toList

def numberWords : List Text :=
  [".inf", ".Inf", ".INF", "+.inf", "+.Inf", "+.INF", "-.inf", "-.Inf", "-.INF", ".nan", ".NaN",
    ".NAN"].map String.toList

/-- The value of a numeral whose first two characters tell its base. -/
def basedNat? : Text → Option Nat
  | '0' :: 'x' :: t => Decimal.natIn? 16 t
  | '0' :: 'o' :: t => Decimal.natIn? 8 t
  | '0' :: 'b' :: t => Decimal.natIn? 2 t
  | _ => none

/-- Holds for a numeral with a base in front, if its value fits into 128 bits. -/
def isBasedInteger : Text → Bool
  | '-' :: t => (basedNat? t).any (· ≤ Nat.pow 2 127)
  | '+' :: t => (basedNat? t).any (· < Nat.pow 2 128)
  | t => (basedNat? t).any (· < Nat.pow 2 128)

def withoutSign : Text → Text
  | '-' :: t => t
  | '+' :: t => t
  | t => t

/-- Holds for two or more digits, of which the first is zero, after an optional sign. -/
def isZeroPadded (t : Text) : Bool :=
  match withoutSign t with
  | '0' :: c :: cs => (c :: cs).all Char.isDigit
  | _ => false

/-- Holds for a decimal numeral whose value has a finite double. -/
def isDecimal (t : Text) : Bool :=
  (Decimal.read? t).any fun d => (Double.ofDecimal d).isFinite

/-- Holds for a text that, written plain, would be read as something else than a text. -/
def readsOtherwise (t : Text) : Bool :=
  t.isEmpty || words.contains t || numberWords.contains t || isBasedInteger t || isZeroPadded t ||
    isDecimal t

def isBreak (c : Char) : Bool :=
  c == '\n' || c == '\r' || c.toNat == 0x85 || c.toNat == 0x2028 || c.toNat == 0x2029

/-- What may follow a mark: a blank, the end of a line, or the end of the text. -/
def isGap : Option Char → Bool
  | none => true
  | some c => c == ' ' || c == '\t' || c == '\x00' || isBreak c

def isPrintable (c : Char) : Bool :=
  let n := c.toNat
  n == 0x0A || (0x20 ≤ n && n ≤ 0x7E) || (0xA0 ≤ n && n ≤ 0xFFFD && n != 0xFEFF) || 0x10000 ≤ n

/-- The characters that have another meaning at the front of a text, whatever follows them. -/
def isMark (c : Char) : Bool :=
  "#,[]\x7b\x7d&*!|>'\"%@`".toList.contains c

/-- Holds if the front of a text would not be read as the front of a text. -/
def opensOtherwise : Text → Bool
  | '-' :: '-' :: '-' :: _ => true
  | '.' :: '.' :: '.' :: _ => true
  | c :: cs => isMark c || ((c == '?' || c == ':' || c == '-') && isGap cs.head?)
  | [] => false

/-- Holds if a mark behind the first character would end a plain text. -/
def endsEarly : Text → Bool
  | before :: c :: cs =>
      (c == ':' && isGap cs.head?) || (c == '#' && isGap (some before)) || endsEarly (c :: cs)
  | _ => false

/-- Holds if a blank and the end of a line stand side by side. -/
def mixesBreaks : Text → Bool
  | a :: b :: cs => (a == ' ' && isBreak b) || (isBreak a && b == ' ') || mixesBreaks (b :: cs)
  | _ => false

inductive Style where
  | plain
  | singleQuoted
  | doubleQuoted
deriving DecidableEq, Repr

def needsEscapes (t : Text) : Bool :=
  t.any (fun c => !isPrintable c || c == '\n') || mixesBreaks t

/-- Holds if a text cannot stand without quotes. -/
def needsQuotes (t : Text) : Bool :=
  readsOtherwise t || opensOtherwise t || endsEarly t || t.head? == some ' ' ||
    t.getLast? == some ' ' || t.any isBreak

def style (t : Text) : Style :=
  if needsEscapes t then .doubleQuoted else if needsQuotes t then .singleQuoted else .plain

/-- A quote inside single quotes is written twice. -/
def doubled (c : Char) : Text :=
  if c == '\'' then ['\'', '\''] else [c]

/-- Writes a text for single quotes; what follows the end of a line goes to column `indent`. -/
def singleQuotedFrom (indent : Nat) (behindBreak : Bool) : Text → Text
  | [] => if behindBreak then List.replicate indent ' ' else []
  | c :: cs =>
      if isBreak c then c :: singleQuotedFrom indent true cs
      else
        (if behindBreak then List.replicate indent ' ' else []) ++ doubled c ++
          singleQuotedFrom indent false cs

def escapeLetter? (c : Char) : Option Char :=
  match c.toNat with
  | 0x00 => some '0'
  | 0x07 => some 'a'
  | 0x08 => some 'b'
  | 0x09 => some 't'
  | 0x0A => some 'n'
  | 0x0B => some 'v'
  | 0x0C => some 'f'
  | 0x0D => some 'r'
  | 0x1B => some 'e'
  | 0x22 => some '"'
  | 0x5C => some '\\'
  | 0x85 => some 'N'
  | 0x2028 => some 'L'
  | 0x2029 => some 'P'
  | _ => none

/-- The escape of a character by its code point, in the shortest of three widths. -/
def escapeCode (c : Char) : Text :=
  let n := c.toNat
  let (mark, width) := if n ≤ 0xFF then ('x', 2) else if n ≤ 0xFFFF then ('u', 4) else ('U', 8)
  '\\' :: mark :: Text.upper (Tree.paddedHex width n)

def escaped (c : Char) : Text :=
  match escapeLetter? c with
  | some letter => ['\\', letter]
  | none => if isPrintable c then [c] else escapeCode c

/-- Writes a text whose further lines, if it has any, go to column `indent`. -/
def scalar (indent : Nat) (t : Text) : Text :=
  match style t with
  | .plain => t
  | .singleQuoted => '\'' :: singleQuotedFrom indent false t ++ ['\'']
  | .doubleQuoted => Text.quote (t.flatMap escaped)

def newLine (indent : Nat) : Text :=
  '\n' :: List.replicate indent ' '

end Yaml

namespace Tree

open Yaml

/-- Where the content of a field starts: behind its name, or on a line of its own. -/
def yamlLead (indent : Nat) : Tree → Text
  | list (_ :: _) => newLine indent
  | record (_ :: _) => newLine (indent + 2)
  | _ => [' ']

/-- The column in which the content of a field in column `indent` is written. -/
def yamlColumn (indent : Nat) : Tree → Nat
  | list (_ :: _) => indent
  | _ => indent + 2

mutual

/-- Writes a tree from column `indent` on, without the end of its last line. -/
def yamlFrom (indent : Nat) : Tree → Text
  | null => "null".toList
  | bool b => truth b
  | number mantissa scale => numeral mantissa scale
  | text t => scalar indent t
  | list [] => "[]".toList
  | list items => Text.join (newLine indent) (yamlItems indent items)
  | record [] => "\x7b\x7d".toList
  | record fields => Text.join (newLine indent) (yamlFields indent fields)

def yamlItems (indent : Nat) : List Tree → List Text
  | [] => []
  | item :: rest => ('-' :: ' ' :: yamlFrom (indent + 2) item) :: yamlItems indent rest

def yamlFields (indent : Nat) : List (Text × Tree) → List Text
  | [] => []
  | (name, content) :: rest =>
      (scalar indent name ++ ':' :: yamlLead indent content ++
        yamlFrom (yamlColumn indent content) content) :: yamlFields indent rest

end

def yaml (t : Tree) : Text :=
  yamlFrom 0 t ++ ['\n']

end Tree

end DirectoryAccess
