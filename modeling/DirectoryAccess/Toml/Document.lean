import DirectoryAccess.Toml.Quoted
import DirectoryAccess.Toml.Word

/-!
# TOML documents

A document is lines of keys with their items and of headers, which say to which
table the keys behind them belong.  Each reader returns what follows what it
read, and every step of the readers that call one another takes something off
the text, so that a number of steps computed from its length is enough.
-/

namespace DirectoryAccess

namespace Toml

def skipBlanks (t : Text) : Text :=
  t.dropWhile fun c => c == ' ' || c == '\t'

/-- Drops blanks, ends of lines and comments; `inComment` holds behind a number sign. -/
def skipLines? (inComment : Bool) : Text → Option Text
  | [] => some []
  | '\n' :: t => skipLines? false t
  | '\r' :: '\n' :: t => skipLines? false t
  | c :: t =>
      if inComment then if isPlain c then skipLines? true t else none
      else if c == ' ' || c == '\t' then skipLines? false t
      else if c == '#' then skipLines? true t
      else some (c :: t)

/-- Drops blanks, behind which a line has to end. -/
def endLine? (t : Text) : Option Text :=
  match skipBlanks t with
  | [] => some []
  | '\n' :: rest => some rest
  | '\r' :: '\n' :: rest => some rest
  | '#' :: rest => some ('#' :: rest)
  | _ => none

def isKeyChar (c : Char) : Bool :=
  c.isAlphanum || c == '_' || c == '-'

def key? (t : Text) : Option (Text × Text) :=
  (quoted? t).or (Text.run? isKeyChar t)

def pathWith : Nat → Text → Option (List Text × Text)
  | 0, _ => none
  | steps + 1, t => do
      let (name, rest) ← key? (skipBlanks t)
      match skipBlanks rest with
      | '.' :: rest => do
          let (names, rest) ← pathWith steps rest
          return (name :: names, rest)
      | rest => return ([name], rest)

/-- Reads keys with points between them, with the blanks around them. -/
def path? (t : Text) : Option (List Text × Text) :=
  pathWith (t.length + 1) t

/-- Reads a bare word.  The blank between a date and a time belongs to it. -/
def bare? (t : Text) : Option (Item × Text) :=
  let word := t.takeWhile isWordChar
  let rest := t.dropWhile isWordChar
  match rest with
  | ' ' :: c :: more =>
      if isDate word && c.isDigit then
        let word := word ++ ' ' :: (c :: more).takeWhile isWordChar
        (word? word).map fun item => (item, (c :: more).dropWhile isWordChar)
      else (word? word).map fun item => (item, rest)
  | _ => (word? word).map fun item => (item, rest)

mutual

def itemWith : Nat → Text → Option (Item × Text)
  | 0, _ => none
  | steps + 1, t =>
      match t with
      | '[' :: rest => do
          let (items, rest) ← itemsWith steps rest
          return (.array false items, rest)
      | '\x7b' :: rest =>
          match skipBlanks rest with
          | '\x7d' :: rest => some (.table .inline [], rest)
          | rest => do
              let (fields, rest) ← fieldsWith steps [] rest
              return (.table .inline fields, rest)
      | _ =>
          match string? t with
          | some (content, rest) => some (.text content, rest)
          | none => bare? t

/-- Reads the items of an array up to its closing bracket; a comma may stand in front of that. -/
def itemsWith : Nat → Text → Option (List Item × Text)
  | 0, _ => none
  | steps + 1, t => do
      match ← skipLines? false t with
      | ']' :: rest => return ([], rest)
      | rest => do
          let (item, rest) ← itemWith steps rest
          match ← skipLines? false rest with
          | ',' :: rest => do
              let (items, rest) ← itemsWith steps rest
              return (item :: items, rest)
          | ']' :: rest => return ([item], rest)
          | _ => none

def fieldsWith : Nat → Fields → Text → Option (Fields × Text)
  | 0, _, _ => none
  | steps + 1, fields, t => do
      let (path, item, rest) ← assignmentWith steps t
      let fields ← fields.assignPath path item
      match skipBlanks rest with
      | ',' :: rest => fieldsWith steps fields rest
      | '\x7d' :: rest => return (fields, rest)
      | _ => none

def assignmentWith : Nat → Text → Option (List Text × Item × Text)
  | 0, _ => none
  | steps + 1, t => do
      let (path, rest) ← path? t
      match rest with
      | '=' :: rest => do
          let (item, rest) ← itemWith steps (skipBlanks rest)
          return (path, item, rest)
      | _ => none

end

/-- Reads a path of keys, the equality sign and an item. -/
def assignment? (t : Text) : Option (List Text × Item × Text) :=
  assignmentWith (3 * t.length + 3) t

/-- Opens the table of a header, or the next one of an array. -/
def openPath (element : Bool) (path : List Text) (root : Fields) : Option Fields :=
  match path.getLast? with
  | none => none
  | some name =>
      root.within (if element then Fields.openElement name else Fields.openTable name)
        path.dropLast

/-- Reads the path of a header up to its closing brackets. -/
def header? (closing t : Text) : Option (List Text × Text) := do
  let (path, rest) ← path? t
  let rest ← Text.strip? closing rest
  return (path, rest)

/--
Reads one line: a header, which gives the path of the table for the keys behind
it, or a key with its item.
-/
def line? (root : Fields) (current : List Text) (t : Text) :
    Option (Fields × List Text × Text) :=
  match t with
  | '[' :: '[' :: rest => do
      let (path, rest) ← header? "]]".toList rest
      return (← openPath true path root, path, rest)
  | '[' :: rest => do
      let (path, rest) ← header? "]".toList rest
      return (← openPath false path root, path, rest)
  | _ => do
      let (path, item, rest) ← assignment? t
      return (← root.within (Fields.assignPath path item) current, current, rest)

def linesWith : Nat → Fields → List Text → Text → Option Fields
  | 0, _, _, _ => none
  | steps + 1, root, current, t => do
      match ← skipLines? false t with
      | [] => return root
      | rest => do
          let (root, current, rest) ← line? root current rest
          linesWith steps root current (← endLine? rest)

/-- Drops the mark of the byte order, which may stand in front of a document. -/
def withoutMark : Text → Text
  | '\ufeff' :: t => t
  | t => t

def read? (t : Text) : Option Fields :=
  let t := withoutMark t
  linesWith (t.length + 1) [] [] t

end Toml

end DirectoryAccess
