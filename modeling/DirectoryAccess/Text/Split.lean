import DirectoryAccess.Text.Basic

/-!
# Splitting text

The splitters of the library: at a plain delimiter, at an unescaped one, at an
unescaped one outside quotes, and at a word outside parentheses.  Each returns
the parts in order and untrimmed, and joining the parts with the delimiter
gives the input back.
-/

namespace DirectoryAccess

namespace Text

def consPart (c : Char) : List Text → List Text
  | [] => [[c]]
  | part :: parts => (c :: part) :: parts

def splitOn (d : Char) : Text → List Text
  | [] => [[]]
  | c :: cs => if c = d then [] :: splitOn d cs else consPart c (splitOn d cs)

/-- Splits at every `||`, the leftmost first: in `|||` the third bar starts a part. -/
def splitBars : Text → List Text
  | [] => [[]]
  | '|' :: '|' :: cs => [] :: splitBars cs
  | c :: cs => consPart c (splitBars cs)

/-- The entries of a text delimited by `||`: trimmed, the empty ones left out. -/
def entries (t : Text) : List Text :=
  ((splitBars t).map trim).filter fun part => !part.isEmpty

def commaEntries (t : Text) : List Text :=
  ((splitOn ',' t).map trim).filter fun part => !part.isEmpty

/-- The runs of characters between white space. -/
def words : Text → List Text
  | [] => []
  | c :: cs =>
      if isBlank c then words cs
      else
        match cs with
        | [] => [[c]]
        | d :: _ => if isBlank d then [c] :: words cs else consPart c (words cs)

/-- Splits at every `d` that no backslash escapes. -/
def splitEscaped (d : Char) : Text → List Text
  | [] => [[]]
  | '\\' :: c :: cs => consPart '\\' (consPart c (splitEscaped d cs))
  | c :: cs => if c = d then [] :: splitEscaped d cs else consPart c (splitEscaped d cs)

def hasUnescaped (d : Char) : Text → Bool
  | [] => false
  | '\\' :: _ :: cs => hasUnescaped d cs
  | c :: cs => c == d || hasUnescaped d cs

/-- As `splitUnquoted`, for a text that starts inside quotes if `quoted` says so. -/
def splitUnquotedFrom (d : Char) (quoted : Bool) : Text → List Text
  | [] => [[]]
  | '\\' :: c :: cs => consPart '\\' (consPart c (splitUnquotedFrom d quoted cs))
  | '"' :: cs => consPart '"' (splitUnquotedFrom d (!quoted) cs)
  | c :: cs =>
      if c = d && !quoted then [] :: splitUnquotedFrom d quoted cs
      else consPart c (splitUnquotedFrom d quoted cs)

/--
Splits at every `d` outside double quotes.  A backslash escapes the character
after it, inside quotes and outside.
-/
def splitUnquoted (d : Char) (t : Text) : List Text :=
  splitUnquotedFrom d false t

/-- The depth of parentheses after `c`; a `)` too many leaves it at zero. -/
def depthAfter (c : Char) (depth : Nat) : Nat :=
  if c = '(' then depth + 1 else if c = ')' then depth - 1 else depth

def splitAtDepth (word : Text) (depth : Nat) (t : Text) : List Text :=
  match t with
  | [] => [[]]
  | c :: cs =>
      if depth = 0 && (strip? word (c :: cs)).isSome then
        [] :: splitAtDepth word 0 (cs.drop (word.length - 1))
      else
        consPart c (splitAtDepth word (depthAfter c depth) cs)
  termination_by t.length
  decreasing_by
    all_goals simp only [List.length_cons, List.length_drop]; omega

/-- Splits at every `word` outside parentheses. -/
def splitAtDepthZero (word : Text) (t : Text) : List Text :=
  splitAtDepth word 0 t

end Text

end DirectoryAccess
