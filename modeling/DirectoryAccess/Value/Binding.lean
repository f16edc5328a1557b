import DirectoryAccess.BitSet
import DirectoryAccess.Directory.ObjectId

/-!
# Attribute bindings

The value of the keywords that compare an attribute of the entry with the
requester: `attribute#kind`, where the kind is a type of binding or a value of
the attribute, after `parent[levels].` if the entries above count as well.
-/

namespace DirectoryAccess

/-- The levels above an entry that count, 0 for the entry itself and at most 9. -/
structure InheritanceLevels where
  set : BitSet 16
deriving DecidableEq, Repr, Inhabited

namespace InheritanceLevels

def empty : InheritanceLevels :=
  ⟨.empty⟩

def highest : Nat :=
  9

/-- Adds a level; one above the highest is left out. -/
def insert (l : InheritanceLevels) (level : Nat) : InheritanceLevels :=
  if level ≤ highest then ⟨l.set.insert level⟩ else l

def erase (l : InheritanceLevels) (level : Nat) : InheritanceLevels :=
  ⟨l.set.erase level⟩

def contains (l : InheritanceLevels) (level : Nat) : Bool :=
  l.set.contains level

def levels (l : InheritanceLevels) : List Nat :=
  l.set.positions

def isEmpty (l : InheritanceLevels) : Bool :=
  l.set.isEmpty

/-- Reads one level: a single digit, white space around it left aside. -/
def readLevel (token : Text) : Except ValueFault Nat :=
  match Text.trim token with
  | [c] => if c.isDigit then .ok (c.toNat - '0'.toNat) else .error (.badLevel [c])
  | other => .error (.badLevel other)

def read (t : Text) : Except ValueFault InheritanceLevels := do
  let found ← (Text.splitOn ',' t).mapM readLevel
  let result := found.foldl insert empty
  if result.isEmpty then .error .noLevels else .ok result

def parse (t : Text) : Except Error InheritanceLevels :=
  (read t).mapError (.invalidValue .inheritance)

def text (l : InheritanceLevels) : Text :=
  Text.join [','] (l.levels.map Text.ofNat)

end InheritanceLevels

/-- What the values of a bound attribute name. -/
inductive BindingType where
  | userDn
  | groupDn
  | roleDn
  | selfDn
  | ldapUrl
deriving DecidableEq, Repr, Inhabited

namespace BindingType

def all : List BindingType :=
  [userDn, groupDn, roleDn, selfDn, ldapUrl]

def name : BindingType → Text
  | userDn => "USERDN".toList
  | groupDn => "GROUPDN".toList
  | roleDn => "ROLEDN".toList
  | selfDn => "SELFDN".toList
  | ldapUrl => "LDAPURL".toList

def ofName? (t : Text) : Option BindingType :=
  all.find? fun b => b.name == Text.upper (Text.trim t)

end BindingType

/-- What a bound attribute is compared with. -/
inductive BindingKind where
  | type (b : BindingType)
  | value (v : Text)
deriving DecidableEq, Repr, Inhabited

namespace BindingKind

def text : BindingKind → Text
  | type b => b.name
  | value v => v

/-- The kind written as a text: a type if the text spells one, else a value. -/
def ofText (t : Text) : BindingKind :=
  match BindingType.ofName? t with
  | some b => type b
  | none => value t

/-- Holds for the types that name entries: all but the URL. -/
def namesEntry : BindingKind → Bool
  | type b => b != .ldapUrl
  | value _ => false

end BindingKind

/-- The value of a keyword that binds an attribute to the requester. -/
structure AttributeBinding where
  levels : Option InheritanceLevels
  attr : Text
  kind : BindingKind
deriving DecidableEq, Repr, Inhabited

namespace AttributeBinding

def opening : Text :=
  "parent[".toList

/-- Reads the levels at the front of a trimmed text, and returns what follows the dot after them. -/
def readLevels (raw : Text) : Except ValueFault (Option InheritanceLevels × Text) :=
  match Text.stripFold? opening raw with
  | none => .ok (none, raw)
  | some rest =>
      match Text.cut? ']' rest with
      | none => .error (.openInheritance raw)
      | some (digits, after) => do
          let levels ← (InheritanceLevels.read digits).mapError (.within .inheritance)
          match after with
          | '.' :: binding => return (some levels, binding)
          | _ => throw (.noDotAfterInheritance raw)

def read (t : Text) : Except ValueFault AttributeBinding :=
  let raw := Text.trim t
  do
    let (levels, binding) ← readLevels raw
    match Text.cut? '#' binding with
    | none => throw (.noHash raw)
    | some (name, value) =>
        let attr := Text.trim name
        let kind := Text.trim value
        if !Text.isAttributeDescriptor attr then throw (.badAttribute attr)
        else if kind.isEmpty then throw (.noValueAfterHash raw)
        else if levels.isSome && !(BindingKind.ofText kind).namesEntry then
          throw (.inheritanceWithoutName raw)
        -- What is no type is a value of any characters, quotes among them.
        else return ⟨levels, attr, .ofText kind⟩

def text (b : AttributeBinding) : Text :=
  match b.levels with
  | none => b.attr ++ '#' :: b.kind.text
  | some levels => opening ++ levels.text ++ "].".toList ++ b.attr ++ '#' :: b.kind.text

end AttributeBinding

end DirectoryAccess
