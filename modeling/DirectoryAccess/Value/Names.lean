import DirectoryAccess.Directory.Filter
import DirectoryAccess.Directory.Name
import DirectoryAccess.Distinct
import DirectoryAccess.Value.Scope

/-!
# Lists of names

The values of the keywords that speak of entries: special names, distinguished
names and URLs that stand for the results of a search, each written after the
scheme `ldap:///` and separated by `||`.
-/

namespace DirectoryAccess

/-- A word that stands for requesters in their relation to the entry. -/
inductive SpecialName where
  | anyone
  | all
  | self
  | parent
deriving DecidableEq, Repr, Inhabited

namespace SpecialName

def every : List SpecialName :=
  [anyone, all, self, parent]

def name : SpecialName → Text
  | anyone => "anyone".toList
  | all => "all".toList
  | self => "self".toList
  | parent => "parent".toList

def ofName? (t : Text) : Option SpecialName :=
  every.find? fun s => s.name == Text.lower t

end SpecialName

/-- The part of a URL after its scheme: `base?attributes?scope?filter`. -/
structure EntryUrl where
  base : DistinguishedName
  attributes : List Text
  scope : Option SearchScope
  filter : Option SearchFilter
deriving DecidableEq, Repr, Inhabited

namespace EntryUrl

/-- What stands before the first question mark, and what stands after it if there is one. -/
def field (t : Text) : Text × Option Text :=
  match Text.cut? '?' t with
  | none => (t, none)
  | some (front, rest) => (front, some rest)

/-- The next field of a URL of which this much is left. -/
def nextField : Option Text → Option Text × Option Text
  | none => (none, none)
  | some t => (some (field t).1, (field t).2)

/-- A field that is left out or blank says nothing; any other is read. -/
def optional {α : Type} (reader : Text → Except ValueFault α) :
    Option Text → Except ValueFault (Option α)
  | none => .ok none
  | some t => if Text.isBlankText t then .ok none else (reader (Text.trim t)).map some

/-- Reads the part of a URL after its scheme.  Question marks in the filter are its own. -/
def read (t : Text) : Except ValueFault EntryUrl :=
  let base := field t
  let attributes := nextField base.2
  let scope := nextField attributes.2
  do
    let name ← (DistinguishedName.read true base.1).mapError (.within .name)
    let reach ← optional
      (fun s => (SearchScope.read s).mapError (.within (.keyword (.target .targetScope)))) scope.1
    let filter ← optional
      (fun s => (SearchFilter.read s).mapError (.within .filter)) scope.2
    return ⟨name, (attributes.1.map Text.commaEntries).getD [], reach, filter⟩

def fields (u : EntryUrl) : List Text :=
  [u.base.text, Text.join [','] u.attributes, (u.scope.map SearchScope.urlName).getD [],
    (u.filter.map SearchFilter.text).getD []]

/-- Leaves out the empty fields at the end, but never the first field. -/
def withoutEmptyEnd : List Text → List Text
  | [] => []
  | first :: others => first :: (others.reverse.dropWhile List.isEmpty).reverse

def text (u : EntryUrl) : Text :=
  Text.join ['?'] (withoutEmptyEnd u.fields)

end EntryUrl

inductive NameEntry where
  | special (s : SpecialName)
  | dn (d : DistinguishedName)
  | url (u : EntryUrl)
deriving DecidableEq, Repr, Inhabited

namespace NameEntry

def scheme : Text :=
  "ldap:///".toList

def text : NameEntry → Text
  | special s => scheme ++ s.name
  | dn d => scheme ++ d.text
  | url u => scheme ++ u.text

/-- Equivalence of members: two names are compared as names, all else as it is written. -/
def same : NameEntry → NameEntry → Bool
  | dn a, dn b => a.same b
  | a, b => Text.sameFold a.text b.text

/-- Drops the scheme, whatever its case, if there is one. -/
def withoutScheme (t : Text) : Text :=
  (Text.stripFold? scheme t).getD t

/-- Reads one entry of a list; a URL only where URLs may stand. -/
def read (urls : Bool) (t : Text) : Except ValueFault NameEntry :=
  let name := withoutScheme t
  match SpecialName.ofName? name with
  | some s => .ok (special s)
  | none =>
      if name.contains '?' then
        if urls then (EntryUrl.read name).map url
        else .error (.urlNotPermitted t)
      else
        ((DistinguishedName.read true name).mapError (.within .name)).map dn

def isUrl : NameEntry → Bool
  | url _ => true
  | _ => false

end NameEntry

/-- A list of names in which no two members are equivalent, if it was built by pushing. -/
structure NameList where
  items : List NameEntry
deriving DecidableEq, Repr, Inhabited

namespace NameList

def empty : NameList :=
  ⟨[]⟩

def push (l : NameList) (item : NameEntry) : NameList :=
  ⟨Distinct.push NameEntry.same l.items item⟩

def ofList (items : List NameEntry) : NameList :=
  ⟨Distinct.ofList NameEntry.same items⟩

def read (urls : Bool) (raw : Text) : Except ValueFault NameList := do
  let items ← (Text.entries raw).mapM (NameEntry.read urls)
  if items.isEmpty then .error (.noName raw) else .ok (ofList items)

def text (l : NameList) : Text :=
  Text.join " || ".toList (l.items.map NameEntry.text)

def containsSpecial (l : NameList) (s : SpecialName) : Bool :=
  l.items.any fun item => item == .special s

def hasUrl (l : NameList) : Bool :=
  l.items.any NameEntry.isUrl

end NameList

end DirectoryAccess
