/-!
# Text

All text of the library is a list of characters, so that every reader is a
recursion on what it reads and every printer an append.  This module holds the
character classes, trimming, ASCII case folding and the cuts at a character or
at a fixed word.
-/

namespace DirectoryAccess

/-- Text as the readers and printers see it: characters, first one first. -/
abbrev Text := List Char

namespace Text

/-- White space in the sense of the Unicode property `White_Space`. -/
def isBlank (c : Char) : Bool :=
  (9 ≤ c.val && c.val ≤ 13) || c.val == 0x20 || c.val == 0x85 || c.val == 0xA0 ||
    c.val == 0x1680 || (0x2000 ≤ c.val && c.val ≤ 0x200A) || c.val == 0x2028 ||
    c.val == 0x2029 || c.val == 0x202F || c.val == 0x205F || c.val == 0x3000

/-- The white space that may stand between two tokens: space, tab, carriage return, line feed. -/
def isSeparator (c : Char) : Bool :=
  c == ' ' || c == '\t' || c == '\r' || c == '\n'

def trimStart (t : Text) : Text :=
  t.dropWhile isBlank

def trimEnd (t : Text) : Text :=
  (t.reverse.dropWhile isBlank).reverse

def trim (t : Text) : Text :=
  trimEnd (trimStart t)

/-- Holds for text made of white space only, the empty text included. -/
def isBlankText (t : Text) : Bool :=
  (trim t).isEmpty

def skipSeparators (t : Text) : Text :=
  t.dropWhile isSeparator

/-- ASCII letters in lower case, all else unchanged. -/
def lower (t : Text) : Text :=
  t.map Char.toLower

def upper (t : Text) : Text :=
  t.map Char.toUpper

/-- Equality that does not tell the two cases of an ASCII letter apart. -/
def sameFold (a b : Text) : Bool :=
  lower a == lower b

/-- The number of bytes that the text takes in UTF-8. -/
def byteLength : Text → Nat
  | [] => 0
  | c :: cs => c.utf8Size + byteLength cs

/-- What follows `word` at the front of a text, if the text starts with it. -/
def strip? : Text → Text → Option Text
  | [], t => some t
  | w :: ws, c :: cs => if w = c then strip? ws cs else none
  | _ :: _, [] => none

/-- As `strip?`, without telling the two cases of an ASCII letter apart. -/
def stripFold? : Text → Text → Option Text
  | [], t => some t
  | w :: ws, c :: cs => if w.toLower = c.toLower then stripFold? ws cs else none
  | _ :: _, [] => none

/-- What stands before a last character `c`, if the text ends with it. -/
def stripLast? (c : Char) (t : Text) : Option Text :=
  match t.reverse with
  | [] => none
  | d :: front => if d = c then some front.reverse else none

/-- Cuts at the first `d`: what stands before it and what stands after it. -/
def cut? (d : Char) : Text → Option (Text × Text)
  | [] => none
  | c :: cs =>
      if c = d then some ([], cs)
      else (cut? d cs).map fun parts => (c :: parts.1, parts.2)

/-- Cuts at the first place where `word` stands, whatever the case of its ASCII letters. -/
def cutFold? (word : Text) : Text → Option (Text × Text)
  | [] => none
  | c :: cs =>
      match stripFold? word (c :: cs) with
      | some rest => some ([], rest)
      | none => (cutFold? word cs).map fun parts => (c :: parts.1, parts.2)

/-- The longest run of characters of a class and what follows it, if the run is not empty. -/
def run? (inClass : Char → Bool) (t : Text) : Option (Text × Text) :=
  if (t.takeWhile inClass).isEmpty then none
  else some (t.takeWhile inClass, t.dropWhile inClass)

def join (separator : Text) (parts : List Text) : Text :=
  separator.intercalate parts

def quote (t : Text) : Text :=
  '"' :: t ++ ['"']

def enclose (parenthesized : Bool) (t : Text) : Text :=
  if parenthesized then '(' :: t ++ [')'] else t

def ofNat (n : Nat) : Text :=
  Nat.toDigits 10 n

def ofInt : Int → Text
  | .ofNat n => ofNat n
  | .negSucc n => '-' :: ofNat (n + 1)

theorem length_lt_of_dropWhile_eq_cons {p : Char → Bool} {t rest : Text} {c : Char}
    (h : t.dropWhile p = c :: rest) : rest.length < t.length := by
  have hle := (List.dropWhile_sublist (p := p) (l := t)).length_le
  rw [h, List.length_cons] at hle
  omega

theorem run?_length {inClass : Char → Bool} {t run rest : Text}
    (h : run? inClass t = some (run, rest)) : rest.length < t.length := by
  unfold run? at h
  split at h
  · simp at h
  · rename_i hne
    simp only [Option.some.injEq, Prod.mk.injEq] at h
    obtain ⟨-, rfl⟩ := h
    have hsplit := congrArg List.length (List.takeWhile_append_dropWhile (p := inClass) (l := t))
    have hpos : 0 < (t.takeWhile inClass).length := by
      cases ht : t.takeWhile inClass <;> simp_all
    rw [List.length_append] at hsplit
    omega

end Text

end DirectoryAccess
