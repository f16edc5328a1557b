import DirectoryAccess.Tree.Basic

/-!
# Trees as JSON

The compact form: no blank and no line break between the marks.  In a string
the quote, the backslash and the control characters are escaped, and all else
stands as it is.
-/

namespace DirectoryAccess

namespace Tree

/-- The value written as hexadecimal digits with zeros in front up to `width`. -/
def paddedHex (width n : Nat) : Text :=
  let ds := Nat.toDigits 16 n
  List.replicate (width - ds.length) '0' ++ ds

def jsonChar (c : Char) : Text :=
  match c with
  | '"' => ['\\', '"']
  | '\\' => ['\\', '\\']
  | '\x08' => ['\\', 'b']
  | '\t' => ['\\', 't']
  | '\n' => ['\\', 'n']
  | '\x0c' => ['\\', 'f']
  | '\r' => ['\\', 'r']
  | _ => if c.toNat < 0x20 then ['\\', 'u'] ++ paddedHex 4 c.toNat else [c]

def jsonString (t : Text) : Text :=
  Text.quote (t.flatMap jsonChar)

/-- A number, with an exponent if its scale is not zero. -/
def numeral (mantissa : Int) (scale : Nat) : Text :=
  if scale == 0 then Text.ofInt mantissa else Text.ofInt mantissa ++ "e-".toList ++ Text.ofNat scale

def truth (b : Bool) : Text :=
  if b then "true".toList else "false".toList

mutual

/-- Writes a tree as compact JSON. -/
def json : Tree → Text
  | null => "null".toList
  | bool b => truth b
  | number mantissa scale => numeral mantissa scale
  | text t => jsonString t
  | list items => '[' :: Text.join [','] (jsonItems items) ++ [']']
  | record fields => '\x7b' :: Text.join [','] (jsonFields fields) ++ ['\x7d']

def jsonItems : List Tree → List Text
  | [] => []
  | item :: rest => json item :: jsonItems rest

def jsonFields : List (Text × Tree) → List Text
  | [] => []
  | (name, content) :: rest => (jsonString name ++ ':' :: json content) :: jsonFields rest

end

end Tree

end DirectoryAccess
