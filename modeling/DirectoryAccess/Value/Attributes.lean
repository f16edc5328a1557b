import DirectoryAccess.Directory.Filter
import DirectoryAccess.Directory.ObjectId
import DirectoryAccess.Distinct

/-!
# Attributes and object identifiers that a rule governs

The values of the target keywords that list attributes, controls and extended
operations, and of the one that filters the values added to or deleted from an
attribute.
-/

namespace DirectoryAccess

/-- The attributes that a rule governs: all of them, or those listed. -/
structure AttributeList where
  all : Bool
  attributes : List Text
deriving DecidableEq, Repr, Inhabited

namespace AttributeList

def everything : AttributeList :=
  ⟨true, []⟩

def empty : AttributeList :=
  ⟨false, []⟩

/-- Appends an attribute unless it is there in either case; changes nothing if all are meant. -/
def push (l : AttributeList) (attr : Text) : AttributeList :=
  if l.all then l else { l with attributes := Distinct.push Text.sameFold l.attributes attr }

def entryFault? (entry : Text) : Option ValueFault :=
  if entry == ['*'] then some .starWithAttributes
  else if !Text.isAttributeDescriptor entry then some (.badAttribute entry)
  else none

/-- Reads `*` or attribute descriptors separated by `||`. -/
def read (raw : Text) : Except ValueFault AttributeList :=
  let entries := Text.entries raw
  if entries == [['*']] then .ok everything
  else
    match entries.findSome? entryFault? with
    | some fault => .error fault
    | none =>
        if entries.isEmpty then .error (.noAttributes raw)
        else .ok (entries.foldl push empty)

def text (l : AttributeList) : Text :=
  if l.all then ['*'] else Text.join " || ".toList l.attributes

def isEmpty (l : AttributeList) : Bool :=
  !l.all && l.attributes.isEmpty

end AttributeList

/-- A list of object identifiers without repetition, if it was built by pushing. -/
structure ObjectIdList where
  items : List ObjectId
deriving DecidableEq, Repr, Inhabited

namespace ObjectIdList

def empty : ObjectIdList :=
  ⟨[]⟩

def push (l : ObjectIdList) (id : ObjectId) : ObjectIdList :=
  ⟨Distinct.push (· == ·) l.items id⟩

def read (raw : Text) : Except ValueFault ObjectIdList := do
  let ids ← (Text.entries raw).mapM fun entry =>
    (ObjectId.read entry).mapError (.within .objectId)
  if ids.isEmpty then .error (.noObjectId raw) else .ok (ids.foldl push empty)

def text (l : ObjectIdList) : Text :=
  Text.join " || ".toList (l.items.map ObjectId.text)

end ObjectIdList

/-- A condition on the values of one attribute. -/
structure AttributeFilter where
  attr : Text
  filter : SearchFilter
deriving DecidableEq, Repr, Inhabited

namespace AttributeFilter

/-- Reads `attribute:filter`. -/
def read (raw : Text) : Except ValueFault AttributeFilter :=
  let clause := Text.trim raw
  match Text.cut? ':' clause with
  | none => .error (.noColon clause)
  | some (name, condition) =>
      let attr := Text.trim name
      if !Text.isAttributeDescriptor attr then .error (.badAttribute attr)
      else ((SearchFilter.read condition).mapError (.within .filter)).map fun f => ⟨attr, f⟩

def text (f : AttributeFilter) : Text :=
  f.attr ++ ':' :: f.filter.text

end AttributeFilter

/-- Conditions on the values added to attributes and on those deleted from them. -/
structure FilterChanges where
  add : List AttributeFilter
  delete : List AttributeFilter
deriving DecidableEq, Repr, Inhabited

namespace FilterChanges

inductive Change where
  | add
  | delete
deriving DecidableEq, Repr

def empty : FilterChanges :=
  ⟨[], []⟩

def isEmpty (c : FilterChanges) : Bool :=
  c.add.isEmpty && c.delete.isEmpty

def Change.ofName? (name : Text) : Option Change :=
  if name == "add".toList then some .add
  else if name == "delete".toList || name == "del".toList then some .delete
  else none

def opensOperation (t : Text) : Bool :=
  let next := Text.lower (Text.trimStart t)
  (Text.strip? "add=".toList next).isSome || (Text.strip? "del=".toList next).isSome ||
    (Text.strip? "delete=".toList next).isSome

def splitOperationsFrom (depth : Nat) : Text → List Text
  | [] => [[]]
  | c :: cs =>
      if depth = 0 && (c == ',' || c == ';') && opensOperation cs then
        [] :: splitOperationsFrom depth cs
      else
        -- A parenthesis counts whether or not it is escaped.
        Text.consPart c (splitOperationsFrom (Text.depthAfter c depth) cs)

/-- Splits at every comma or semicolon outside parentheses that an operation follows. -/
def splitOperations (t : Text) : List Text :=
  splitOperationsFrom 0 t

/-- Reads one operation, given those that came before it: none may come twice. -/
def readOperation (seen : List Change) (raw : Text) :
    Except ValueFault (Change × List AttributeFilter) :=
  let segment := Text.trim raw
  match Text.cut? '=' segment with
  | none => .error (.noOperationName segment)
  | some (spelling, clauses) =>
      let name := Text.lower (Text.trim spelling)
      match Change.ofName? name with
      | none => .error (.badOperation name)
      | some change =>
          if seen.contains change then .error (.badOperation name)
          else do
            let filters ←
              (Text.splitAtDepthZero "&&".toList clauses).mapM AttributeFilter.read
            return (change, filters)

def set (c : FilterChanges) (change : Change) (filters : List AttributeFilter) : FilterChanges :=
  match change with
  | .add => { c with add := filters }
  | .delete => { c with delete := filters }

def readOperations (seen : List Change) (sofar : FilterChanges) :
    List Text → Except ValueFault FilterChanges
  | [] => .ok sofar
  | raw :: rest => do
      let (change, filters) ← readOperation seen raw
      readOperations (change :: seen) (sofar.set change filters) rest

/-- Reads `add=` and `delete=` operations, each a run of clauses joined by `&&`. -/
def read (raw : Text) : Except ValueFault FilterChanges := do
  let changes ← readOperations [] empty (splitOperations raw)
  if changes.isEmpty then .error (.noOperations raw) else .ok changes

def operationText (name : Text) : List AttributeFilter → List Text
  | [] => []
  | filters => [name ++ Text.join " && ".toList (filters.map AttributeFilter.text)]

def text (c : FilterChanges) : Text :=
  Text.join [','] (operationText "add=".toList c.add ++ operationText "delete=".toList c.delete)

end FilterChanges

end DirectoryAccess
