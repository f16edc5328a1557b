import DirectoryAccess.Directory.ObjectId

/-!
# Distinguished names

A name is a sequence of components `attribute=value`, separated by commas and,
inside one relative name, by plus signs; a backslash escapes a separator.  A
pattern is a name in whose values an unescaped `*` stands for any text.
-/

namespace DirectoryAccess

/-- A distinguished name or a pattern of such names, as written. -/
structure DistinguishedName where
  text : Text
deriving DecidableEq, Repr, Inhabited

namespace DistinguishedName

def components (whole : Text) : List Text :=
  (Text.splitEscaped ',' whole).flatMap (Text.splitEscaped '+')

def componentFault? (wildcards : Bool) (whole component : Text) : Option ValueFault :=
  match Text.cut? '=' component with
  | none => some (.noEqualsSign (Text.trim component) whole)
  | some (name, value) =>
      let attr := Text.trim name
      if !Text.isAttributeType attr then some (.badAttributeType attr whole)
      else if Text.isBlankText value then some (.noAttributeValue attr whole)
      else if !wildcards && Text.hasUnescaped '*' value then some (.wildcard whole)
      else none

def read (wildcards : Bool) (t : Text) : Except ValueFault DistinguishedName :=
  -- A blank at the end goes even if a backslash stands in front of it.
  let whole := Text.trim t
  if whole.isEmpty then .error .emptyName
  else
    match (components whole).findSome? (componentFault? wildcards whole) with
    | some fault => .error fault
    | none => .ok ⟨whole⟩

def parse (t : Text) : Except Error DistinguishedName :=
  (read false t).mapError (.invalidValue .name)

/-- Reads a name whose values may hold wildcards. -/
def parsePattern (t : Text) : Except Error DistinguishedName :=
  (read true t).mapError (.invalidValue .name)

/-- Holds if an unescaped `*` stands anywhere in the name. -/
def isPattern (d : DistinguishedName) : Bool :=
  Text.hasUnescaped '*' d.text

/-- Equality of the written names, whatever the case of their ASCII letters. -/
def same (a b : DistinguishedName) : Bool :=
  Text.sameFold a.text b.text

end DistinguishedName

end DirectoryAccess
