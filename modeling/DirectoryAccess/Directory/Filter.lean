import DirectoryAccess.Error

/-!
# Search filters

A filter is an assertion `attribute operator value` in parentheses, or a
conjunction, disjunction or negation of filters.  The reader keeps the text and
only checks it; where it refuses, it reports the last thing that it looked for
and the text from that place on.
-/

namespace DirectoryAccess

/-- A search filter, as written between its outer parentheses. -/
structure SearchFilter where
  text : Text
deriving DecidableEq, Repr, Inhabited

namespace SearchFilter

/-- Where the reader gave up and what it needed there. -/
structure Stop where
  fragment : Text
  need : FilterNeed
deriving DecidableEq, Repr

def isAttributeChar (c : Char) : Bool :=
  c.isAlphanum || c == ';' || c == '.' || c == '-' || c == ':' || c == '_'

def afterComparison? : Text → Option Text
  | '~' :: '=' :: rest => some rest
  | '>' :: '=' :: rest => some rest
  | '<' :: '=' :: rest => some rest
  | '=' :: rest => some rest
  | _ => none

/--
What follows the longest assertion value at the front of a text: any characters
but parentheses, a backslash only together with the character that it escapes.
-/
def afterAssertion : Text → Text
  | [] => []
  | '\\' :: _ :: cs => afterAssertion cs
  | c :: cs => if c = '(' || c = ')' || c = '\\' then c :: cs else afterAssertion cs

/-- Reads an assertion without its parentheses and returns what follows it. -/
def assertion (t : Text) : Except Stop Text :=
  let rest := t.dropWhile isAttributeChar
  if rest.length = t.length then .error ⟨t, .attributeType⟩
  else
    match afterComparison? rest with
    | none => .error ⟨rest, .comparison⟩
    | some value => .ok (afterAssertion value)

mutual

def filterWith : Nat → Text → Except Stop Text
  | 0, t => .error ⟨t, .parenthesis⟩
  | fuel + 1, t =>
      match t with
      | '(' :: inside =>
          match contentWith fuel (Text.skipSeparators inside) with
          | .error stop => .error stop
          | .ok rest =>
              match Text.skipSeparators rest with
              | ')' :: after => .ok after
              | other => .error ⟨other, .parenthesis⟩
      | _ => .error ⟨t, .parenthesis⟩

def contentWith : Nat → Text → Except Stop Text
  | 0, t => .error ⟨t, .parenthesis⟩
  | fuel + 1, t =>
      match t with
      | '&' :: operands =>
          match filterWith fuel (Text.skipSeparators operands) with
          | .ok rest => .ok (filtersWith fuel rest)
          | .error _ => assertion t
      | '|' :: operands =>
          match filterWith fuel (Text.skipSeparators operands) with
          | .ok rest => .ok (filtersWith fuel rest)
          | .error _ => assertion t
      | '!' :: operand =>
          match filterWith fuel (Text.skipSeparators operand) with
          | .ok rest => .ok rest
          | .error _ => assertion t
      | _ => assertion t

/-- Drops filters from the front for as long as there are any. -/
def filtersWith : Nat → Text → Text
  | 0, t => t
  | fuel + 1, t =>
      match filterWith fuel (Text.skipSeparators t) with
      | .ok rest => filtersWith fuel rest
      | .error _ => t

end

/-- Steps that suffice for a text: no text of this length takes more. -/
def steps (t : Text) : Nat :=
  2 * t.length + 2

/-- Reads a filter that is the whole text, separators around it left aside. -/
def check (t : Text) : Except Stop Unit :=
  match filterWith (steps t) (Text.skipSeparators t) with
  | .error stop => .error stop
  | .ok rest =>
      match Text.skipSeparators rest with
      | [] => .ok ()
      | other => .error ⟨other, .endOfText⟩

/-- A text that does not start with a parenthesis is an assertion whose parentheses
were left out. -/
def parenthesized (t : Text) : Text :=
  match t with
  | '(' :: _ => t
  | _ => Text.enclose true t

def read (t : Text) : Except ValueFault SearchFilter :=
  let inner := Text.trim t
  if inner.isEmpty then .error .emptyFilter
  else
    let whole := parenthesized inner
    match check whole with
    | .ok _ => .ok ⟨whole⟩
    | .error stop => .error (.malformedFilter whole stop.fragment stop.need)

/-- As `read`, with the error of a text that stands alone. -/
def parse (t : Text) : Except Error SearchFilter :=
  (read t).mapError (.invalidValue .filter)

end SearchFilter

end DirectoryAccess
