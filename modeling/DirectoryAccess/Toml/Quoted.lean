import DirectoryAccess.Decimal.Basic

/-!
# Strings of a TOML document

Four forms: between double quotes with escapes or between single quotes without,
each on one line or, between three quotes, over several.  Each reader starts
behind the opening quotes and returns the content and what follows the closing
quotes.  The end of a line counts as a line feed.
-/

namespace DirectoryAccess

namespace Toml

/-- The characters that may stand in a string or a comment as they are. -/
def isPlain (c : Char) : Bool :=
  c == '\t' || (0x20 ≤ c.toNat && c.toNat != 0x7F)

def codePoint? (digits : Text) : Option Char := do
  let n ← Decimal.natIn? 16 digits
  if n.isValidChar then some (Char.ofNat n) else none

def escapeLetter? : Char → Option Char
  | 'b' => some '\x08'
  | 't' => some '\t'
  | 'n' => some '\n'
  | 'f' => some '\x0c'
  | 'r' => some '\r'
  | '"' => some '"'
  | '\\' => some '\\'
  | _ => none

def before? (c : Option Char) (read : Option (Text × Text)) : Option (Text × Text) := do
  let (content, rest) ← read
  return ((← c) :: content, rest)

/-- The content of a string between double quotes on one line. -/
def basic? : Text → Option (Text × Text)
  | '"' :: rest => some ([], rest)
  | '\\' :: 'u' :: a :: b :: c :: d :: rest => before? (codePoint? [a, b, c, d]) (basic? rest)
  | '\\' :: 'U' :: a :: b :: c :: d :: e :: f :: g :: h :: rest =>
      before? (codePoint? [a, b, c, d, e, f, g, h]) (basic? rest)
  | '\\' :: c :: rest => before? (escapeLetter? c) (basic? rest)
  | c :: rest => if isPlain c then before? (some c) (basic? rest) else none
  | [] => none

def literal? : Text → Option (Text × Text)
  | '\'' :: rest => some ([], rest)
  | c :: rest => if isPlain c then before? (some c) (literal? rest) else none
  | [] => none

/--
The end of a string between three quotes: up to two quotes that belong to the
content may stand in front of the closing ones.
-/
def closing? (q : Char) : Text → Option (Text × Text)
  | a :: b :: c :: rest =>
      if a = q ∧ b = q ∧ c = q then
        let more := (rest.takeWhile (· == q)).take 2
        some (more, rest.drop more.length)
      else none
  | _ => none

/-- Holds if nothing but blanks stands in front of the next end of a line. -/
def endsLine (t : Text) : Bool :=
  match t.dropWhile fun c => c == ' ' || c == '\t' with
  | '\n' :: _ => true
  | '\r' :: '\n' :: _ => true
  | _ => false

/--
The content of a string between three double quotes.  A backslash at the end of
a line drops all white space up to the next character that is none; `skipping`
holds behind such a backslash.
-/
def basicLines? (skipping : Bool) : Text → Option (Text × Text)
  | [] => none
  | c :: rest =>
      match closing? '"' (c :: rest) with
      | some found => some found
      | none =>
          match c, rest with
          | '\n', rest =>
              if skipping then basicLines? true rest
              else before? (some '\n') (basicLines? false rest)
          | '\r', '\n' :: rest =>
              if skipping then basicLines? true rest
              else before? (some '\n') (basicLines? false rest)
          | '\\', 'u' :: a :: b :: c :: d :: rest =>
              before? (codePoint? [a, b, c, d]) (basicLines? false rest)
          | '\\', 'U' :: a :: b :: c :: d :: e :: f :: g :: h :: rest =>
              before? (codePoint? [a, b, c, d, e, f, g, h]) (basicLines? false rest)
          | '\\', c :: rest =>
              if endsLine (c :: rest) then basicLines? true (c :: rest)
              else before? (escapeLetter? c) (basicLines? false rest)
          | c, rest =>
              if skipping && (c == ' ' || c == '\t') then basicLines? true rest
              else if isPlain c then before? (some c) (basicLines? false rest)
              else none

def literalLines? : Text → Option (Text × Text)
  | [] => none
  | c :: rest =>
      match closing? '\'' (c :: rest) with
      | some found => some found
      | none =>
          match c, rest with
          | '\n', rest => before? (some '\n') (literalLines? rest)
          | '\r', '\n' :: rest => before? (some '\n') (literalLines? rest)
          | c, rest => if isPlain c then before? (some c) (literalLines? rest) else none

def withoutFirstBreak : Text → Text
  | '\n' :: rest => rest
  | '\r' :: '\n' :: rest => rest
  | t => t

def quoted? : Text → Option (Text × Text)
  | '"' :: rest => basic? rest
  | '\'' :: rest => literal? rest
  | _ => none

/-- Reads a string in any of the four forms with its quotes. -/
def string? : Text → Option (Text × Text)
  | '"' :: '"' :: '"' :: rest => basicLines? false (withoutFirstBreak rest)
  | '\'' :: '\'' :: '\'' :: rest => literalLines? (withoutFirstBreak rest)
  | t => quoted? t

end Toml

end DirectoryAccess
