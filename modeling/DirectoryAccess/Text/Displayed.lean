import DirectoryAccess.Text.Basic
import DirectoryAccess.Text.Hidden

/-!
# Displayed text

Messages that quote a piece of input show it between double quotes with one
line of visible characters: `\"`, `\\`, `\0`, `\t`, `\r`, `\n` by name, every
other hidden character by its code point in hexadecimal, as in `\u{301}`.
-/

namespace DirectoryAccess

namespace Text

/-- The code point of a character in lower-case hexadecimal, between braces after `\u`. -/
def displayCode (c : Char) : Text :=
  ['\\', 'u', '\x7b'] ++ Nat.toDigits 16 c.toNat ++ ['\x7d']

def displayChar (c : Char) : Text :=
  match c with
  | '"' => ['\\', '"']
  | '\\' => ['\\', '\\']
  | '\x00' => ['\\', '0']
  | '\t' => ['\\', 't']
  | '\r' => ['\\', 'r']
  | '\n' => ['\\', 'n']
  | _ => if isHidden c then displayCode c else [c]

def display (t : Text) : Text :=
  quote (t.flatMap displayChar)

end Text

end DirectoryAccess
