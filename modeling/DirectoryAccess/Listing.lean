import DirectoryAccess.Text.Split

/-!
# Listings

A listing is the content of a file that holds instructions, one to a logical
line.  A logical line goes on over the physical lines behind it that start with
a blank, of which that one blank is dropped; blank lines and comments end it.
-/

namespace DirectoryAccess

/-- A logical line and the number, from 1, of the physical line that it starts on. -/
structure LogicalLine where
  number : Nat
  text : Text
deriving DecidableEq, Repr, Inhabited

namespace Listing

/-- The physical lines of a content, without the carriage returns at their ends. -/
def physicalLines (content : Text) : List Text :=
  let lines := Text.splitOn '\n' content
  let ended := if lines.getLast? == some [] then lines.dropLast else lines
  ended.map fun line => (line.reverse.dropWhile (· == '\r')).reverse

/-- Holds for blank lines and for comments, which start with a number sign. -/
def isSkipped (line : Text) : Bool :=
  match Text.trimStart line with
  | [] => true
  | c :: _ => c == '#'

/-- Drops the name of the attribute that holds instructions, if the line starts with it. -/
def withoutAttributeName (line : Text) : Text :=
  match Text.stripFold? "aci:".toList line with
  | some rest => Text.trimStart rest
  | none => line

/-- The text with which a physical line opens a logical one. -/
def opening (line : Text) : Text :=
  withoutAttributeName (Text.trim line)

/--
The logical lines of physical lines that are numbered from `number` on, behind a
logical line that may still go on.
-/
def gather (current : Option LogicalLine) (number : Nat) : List Text → List LogicalLine
  | [] => current.toList
  | line :: rest =>
      if isSkipped line then current.toList ++ gather none (number + 1) rest
      else
        match line, current with
        | ' ' :: more, some c =>
            gather (some { c with text := c.text ++ more }) (number + 1) rest
        -- What opens a line is trimmed before anything is joined to it.
        | _, _ => current.toList ++ gather (some ⟨number, opening line⟩) (number + 1) rest

/-- The logical lines of a content, trimmed, without the empty ones. -/
def logicalLines (content : Text) : List LogicalLine :=
  ((gather none 1 (physicalLines content)).map fun l => { l with text := Text.trim l.text }).filter
    fun l => !l.text.isEmpty

end Listing

end DirectoryAccess
