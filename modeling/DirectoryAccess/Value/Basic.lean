import DirectoryAccess.Value.Attributes
import DirectoryAccess.Value.Binding
import DirectoryAccess.Value.Clock
import DirectoryAccess.Value.Days
import DirectoryAccess.Value.Names
import DirectoryAccess.Value.Network
import DirectoryAccess.Value.Scope
import DirectoryAccess.Value.Strength

/-!
# Values

The right-hand sides of the rule language.  Every keyword interprets values of
one shape; `parseBind` and `parseTarget` read a value of the shape of a keyword,
and `fitsBind` and `fitsTarget` tell the shapes apart.
-/

namespace DirectoryAccess

inductive Value where
  | names (l : NameList)
  | binding (b : AttributeBinding)
  | days (s : DaySet)
  | time (t : ClockTime)
  | addresses (l : AddressList)
  | domains (l : DomainList)
  | strength (s : Strength)
  | method (m : AuthMethod)
  | objectIds (l : ObjectIdList)
  | attributes (l : AttributeList)
  | scope (s : SearchScope)
  | filter (f : SearchFilter)
  | changes (c : FilterChanges)
deriving DecidableEq, Repr, Inhabited

namespace Value

/-- Writes a value as it stands between quotes. -/
def text : Value → Text
  | names l => l.text
  | binding b => b.text
  | days s => s.text
  | time t => t.text
  | addresses l => l.text
  | domains l => l.text
  | strength s => s.text
  | method m => m.name
  | objectIds l => l.text
  | attributes l => l.text
  | scope s => s.name
  | filter f => f.text
  | changes c => c.text

/-- Writes the members of a list that may be quoted one by one; any other value is one text. -/
def texts : Value → List Text
  | names l => l.items.map NameEntry.text
  | objectIds l => l.items.map ObjectId.text
  | v => [v.text]

def isEmpty : Value → Bool
  | names l => l.items.isEmpty
  | days s => s.isEmpty
  | addresses l => l.addresses.isEmpty
  | domains l => l.names.isEmpty
  | objectIds l => l.items.isEmpty
  | attributes l => l.isEmpty
  | changes c => c.isEmpty
  | _ => false

/-- Holds if the value has the shape that the bind keyword interprets. -/
def fitsBind (v : Value) : BindKeyword → Bool
  | .userDn | .roleDn | .groupDn => match v with | names _ => true | _ => false
  | .userAttr | .groupAttr => match v with | binding _ => true | _ => false
  | .ip => match v with | addresses _ => true | _ => false
  | .dns => match v with | domains _ => true | _ => false
  | .dayOfWeek => match v with | days _ => true | _ => false
  | .timeOfDay => match v with | time _ => true | _ => false
  | .authMethod => match v with | method _ => true | _ => false
  | .ssf => match v with | strength _ => true | _ => false

/-- Holds if the value has the shape that the target keyword interprets; a target is no URL. -/
def fitsTarget (v : Value) : TargetKeyword → Bool
  | .target | .targetTo | .targetFrom => match v with | names l => !l.hasUrl | _ => false
  | .targetAttr => match v with | attributes _ => true | _ => false
  | .targetControl | .extOp => match v with | objectIds _ => true | _ => false
  | .targetScope => match v with | scope _ => true | _ => false
  | .targetFilter => match v with | filter _ => true | _ => false
  | .targetAttrFilters => match v with | changes _ => true | _ => false

/-- Reads the value of a bind keyword, which is not blank. -/
def readBind (k : BindKeyword) (raw : Text) : Except ValueFault Value :=
  if Text.isBlankText raw then .error .empty
  else
    match k with
    | .userDn | .roleDn | .groupDn => (NameList.read true raw).map names
    | .userAttr | .groupAttr => (AttributeBinding.read raw).map binding
    | .ip => (AddressList.read raw).map addresses
    | .dns => (DomainList.read raw).map domains
    | .dayOfWeek => (DaySet.read raw).map days
    | .timeOfDay => (ClockTime.read raw).map time
    | .authMethod => (AuthMethod.read raw).map method
    | .ssf => (Strength.read raw).map strength

def parseBind (k : BindKeyword) (raw : Text) : Except Error Value :=
  (readBind k raw).mapError (.invalidValue (.keyword (.bind k)))

def bindEntries (k : BindKeyword) (raw : Text) : List Entry :=
  if Text.isBlankText raw then []
  else
    match k with
    | .dayOfWeek => DaySet.entries raw
    | .ssf => Strength.entries raw
    | _ => []

def journaledBind (k : BindKeyword) (raw : Text) : Journaled Error Value := do
  .leave (bindEntries k raw)
  .lift (parseBind k raw)

def single : List Text → Except ValueFault Text
  | [one] => .ok one
  | raws => .error (.notSingle raws.length)

/--
Reads the value of a target keyword from the quoted texts of a clause.  A list
may come as several texts or as one text with `||` in it.
-/
def readTarget (k : TargetKeyword) (raws : List Text) : Except ValueFault Value :=
  if raws.all Text.isBlankText then .error .empty
  else
    let joined := Text.join " || ".toList raws
    match k with
    | .target | .targetTo | .targetFrom => (NameList.read false joined).map names
    | .targetAttr => (AttributeList.read joined).map attributes
    | .targetControl | .extOp => (ObjectIdList.read joined).map objectIds
    | .targetScope => do return scope (← SearchScope.read (← single raws))
    | .targetFilter => do
        let raw ← single raws
        return filter (← (SearchFilter.read raw).mapError (.within .filter))
    | .targetAttrFilters => do return changes (← FilterChanges.read (← single raws))

def parseTarget (k : TargetKeyword) (raws : List Text) : Except Error Value :=
  (readTarget k raws).mapError (.invalidValue (.keyword (.target k)))

end Value

end DirectoryAccess
