import DirectoryAccess.Error
import DirectoryAccess.Text.Split

/-!
# Numeric object identifiers

Two or more arcs separated by dots, each a decimal numeral without leading
zero.  The module also holds the two grammars for attribute names that admit
object identifiers: attribute types and attribute descriptors.
-/

namespace DirectoryAccess

structure ObjectId where
  text : Text
deriving DecidableEq, Repr, Inhabited

namespace ObjectId

def arcFault? (whole arc : Text) : Option ValueFault :=
  if arc.isEmpty || !arc.all Char.isDigit then some (.nonNumericArc whole)
  else if 1 < arc.length && arc.head? == some '0' then some (.leadingZero whole)
  else none

def read (t : Text) : Except ValueFault ObjectId :=
  let whole := Text.trim t
  let arcs := Text.splitOn '.' whole
  if arcs.length < 2 then .error (.tooFewArcs whole)
  else
    match arcs.findSome? (arcFault? whole) with
    | some fault => .error fault
    | none => .ok ⟨whole⟩

def parse (t : Text) : Except Error ObjectId :=
  (read t).mapError (.invalidValue .objectId)

def accepts (t : Text) : Bool :=
  (read t).isOk

end ObjectId

namespace Text

def isNameChar (c : Char) : Bool :=
  c.isAlphanum || c == '-'

def isShortName : Text → Bool
  | [] => false
  | c :: cs => c.isAlpha && cs.all isNameChar

/-- An attribute type: a short name, or an object identifier. -/
def isAttributeType : Text → Bool
  | [] => false
  | c :: cs => isShortName (c :: cs) || (c.isDigit && ObjectId.accepts (c :: cs))

def isAttributeOption (t : Text) : Bool :=
  !t.isEmpty && t.all isNameChar

/-- A short name and any number of options, separated by semicolons. -/
def isOptionedName (t : Text) : Bool :=
  match splitOn ';' t with
  | [] => false
  | name :: options => isShortName name && options.all isAttributeOption

def isAttributeDescriptor (t : Text) : Bool :=
  isOptionedName t || ObjectId.accepts t

end Text

end DirectoryAccess
