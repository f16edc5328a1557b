import DirectoryAccess.Tree.Basic
import DirectoryAccess.Value.Basic

/-!
# Trees of values

The tree of every value and the reading of such trees.  Reading checks the form
only: what a reader of texts would refuse is accepted here, so that a decoded
value may still fail its check.
-/

namespace DirectoryAccess

open DirectoryAccess.Tree

/-- The word of a set of positions as a tree. -/
def BitSet.tree {width : Nat} (s : BitSet width) : Tree :=
  .ofNat s.toNat

def BitSet.ofTree? {width : Nat} (t : Tree) : Option (BitSet width) :=
  (nat? (BitVec.allOnes width).toNat t).map BitSet.ofNat

def BindKeyword.treeName : BindKeyword → Text
  | userDn => "UserDn".toList
  | roleDn => "RoleDn".toList
  | groupDn => "GroupDn".toList
  | userAttr => "UserAttr".toList
  | groupAttr => "GroupAttr".toList
  | ip => "Ip".toList
  | dns => "Dns".toList
  | dayOfWeek => "DayOfWeek".toList
  | timeOfDay => "TimeOfDay".toList
  | authMethod => "AuthMethod".toList
  | ssf => "Ssf".toList

def TargetKeyword.treeName : TargetKeyword → Text
  | target => "Target".toList
  | targetTo => "TargetTo".toList
  | targetFrom => "TargetFrom".toList
  | targetAttr => "TargetAttr".toList
  | targetControl => "TargetControl".toList
  | targetScope => "TargetScope".toList
  | targetFilter => "TargetFilter".toList
  | targetAttrFilters => "TargetAttrFilters".toList
  | extOp => "ExtOp".toList

def Operator.tree (op : Operator) : Tree :=
  .text op.display

def Operator.ofTree? : Tree → Option Operator :=
  member? Operator.all Operator.display

def BindKeyword.tree (k : BindKeyword) : Tree :=
  .text k.treeName

def BindKeyword.ofTree? : Tree → Option BindKeyword :=
  member? BindKeyword.all BindKeyword.treeName

def TargetKeyword.tree (k : TargetKeyword) : Tree :=
  .text k.treeName

def TargetKeyword.ofTree? : Tree → Option TargetKeyword :=
  member? TargetKeyword.all TargetKeyword.treeName

def SpecialName.treeName : SpecialName → Text
  | anyone => "Anyone".toList
  | all => "All".toList
  | self => "SelfDn".toList
  | parent => "Parent".toList

def SpecialName.tree (s : SpecialName) : Tree :=
  .text s.treeName

def SpecialName.ofTree? : Tree → Option SpecialName :=
  member? SpecialName.every SpecialName.treeName

def SearchScope.treeName : SearchScope → Text
  | base => "Base".toList
  | oneLevel => "OneLevel".toList
  | subtree => "Subtree".toList
  | subordinate => "Subordinate".toList

def SearchScope.tree (s : SearchScope) : Tree :=
  .text s.treeName

def SearchScope.ofTree? : Tree → Option SearchScope :=
  member? [.base, .oneLevel, .subtree, .subordinate] SearchScope.treeName

def AuthMethod.treeName : AuthMethod → Text
  | none => "None".toList
  | simple => "Simple".toList
  | ssl => "Ssl".toList
  | sasl => "Sasl".toList
  | saslExternal => "SaslExternal".toList
  | saslDigestMd5 => "SaslDigestMd5".toList
  | saslGssapi => "SaslGssapi".toList

def AuthMethod.tree (m : AuthMethod) : Tree :=
  .text m.treeName

def AuthMethod.ofTree? : Tree → Option AuthMethod :=
  member? AuthMethod.all AuthMethod.treeName

def BindingType.treeName : BindingType → Text
  | userDn => "UserDn".toList
  | groupDn => "GroupDn".toList
  | roleDn => "RoleDn".toList
  | selfDn => "SelfDn".toList
  | ldapUrl => "LdapUrl".toList

def BindingKind.tree : BindingKind → Tree
  | type b => form "BindType".toList (.text b.treeName)
  | value v => form "Value".toList (.text v)

def BindingKind.ofTree? (t : Tree) : Option BindingKind := do
  let (name, content) ← form? t
  if name == "BindType".toList then
    (member? BindingType.all BindingType.treeName content).map type
  else if name == "Value".toList then (text? content).map value
  else none

def DistinguishedName.tree (d : DistinguishedName) : Tree :=
  .text d.text

def DistinguishedName.ofTree? (t : Tree) : Option DistinguishedName :=
  (text? t).map DistinguishedName.mk

def SearchFilter.tree (f : SearchFilter) : Tree :=
  .text f.text

def SearchFilter.ofTree? (t : Tree) : Option SearchFilter :=
  (text? t).map SearchFilter.mk

def ObjectId.tree (i : ObjectId) : Tree :=
  .text i.text

def ObjectId.ofTree? (t : Tree) : Option ObjectId :=
  (text? t).map ObjectId.mk

namespace EntryUrl

def fieldNames : List Text :=
  ["dn".toList, "attributes".toList, "scope".toList, "filter".toList]

def tree (u : EntryUrl) : Tree :=
  .record
    (fieldNames.zip
      [u.base.tree, ofTexts u.attributes, ofOption SearchScope.tree u.scope,
        ofOption SearchFilter.tree u.filter])

def ofTree? (t : Tree) : Option EntryUrl :=
  match fields? fieldNames t with
  | some [base, attributes, scope, filter] => do
      return ⟨← required? DistinguishedName.ofTree? base, ← required? (list? text?) attributes,
        ← optional? SearchScope.ofTree? scope, ← optional? SearchFilter.ofTree? filter⟩
  | _ => none

end EntryUrl

def NameEntry.tree : NameEntry → Tree
  | special s => form "Special".toList s.tree
  | dn d => form "Dn".toList d.tree
  | url u => form "Url".toList u.tree

def NameEntry.ofTree? (t : Tree) : Option NameEntry := do
  let (name, content) ← form? t
  if name == "Special".toList then (SpecialName.ofTree? content).map special
  else if name == "Dn".toList then (DistinguishedName.ofTree? content).map dn
  else if name == "Url".toList then (EntryUrl.ofTree? content).map url
  else none

def NameList.tree (l : NameList) : Tree :=
  form "items".toList (.list (l.items.map NameEntry.tree))

def NameList.ofTree? (t : Tree) : Option NameList :=
  match fields? ["items".toList] t with
  | some [items] => (required? (list? NameEntry.ofTree?) items).map NameList.mk
  | _ => none

namespace AttributeBinding

def fieldNames : List Text :=
  ["levels".toList, "attribute".toList, "kind".toList]

def tree (b : AttributeBinding) : Tree :=
  .record
    (fieldNames.zip
      [ofOption (fun l => l.set.tree) b.levels, .text b.attr, b.kind.tree])

def levelsOfTree? (t : Tree) : Option InheritanceLevels :=
  (BitSet.ofTree? t).map InheritanceLevels.mk

def ofTree? (t : Tree) : Option AttributeBinding :=
  match fields? fieldNames t with
  | some [levels, attr, kind] => do
      return ⟨← optional? levelsOfTree? levels, ← required? text? attr,
        ← required? BindingKind.ofTree? kind⟩
  | _ => none

end AttributeBinding

def DaySet.tree (s : DaySet) : Tree :=
  s.set.tree

def DaySet.ofTree? (t : Tree) : Option DaySet :=
  (BitSet.ofTree? t).map DaySet.mk

/-- The tree of a clock time: the high byte and the low byte of its number. -/
def ClockTime.tree (t : ClockTime) : Tree :=
  .list [.ofNat (t.value / 256), .ofNat (t.value % 256)]

def ClockTime.ofTree? : Tree → Option ClockTime
  | .list [high, low] => do
      return ⟨UInt16.ofNat ((← nat? 255 high) * 256 + (← nat? 255 low))⟩
  | _ => none

/-- The tree of a strength: nothing for zero, else one less than the strength. -/
def Strength.tree (s : Strength) : Tree :=
  if s.value.val = 0 then .null else .ofNat (s.value.val - 1)

def Strength.ofTree? : Tree → Option Strength
  | .null => some (ofInt 0)
  | t => (nat? 255 t).map fun n => ofInt (n + 1)

def AttributeList.tree (l : AttributeList) : Tree :=
  .record [("all".toList, .bool l.all), ("attributes".toList, ofTexts l.attributes)]

def AttributeList.ofTree? (t : Tree) : Option AttributeList :=
  match fields? ["all".toList, "attributes".toList] t with
  | some [all, attributes] => do
      return ⟨← required? bool? all, ← required? (list? text?) attributes⟩
  | _ => none

def AttributeFilter.tree (f : AttributeFilter) : Tree :=
  .record [("attribute".toList, .text f.attr), ("filter".toList, f.filter.tree)]

def AttributeFilter.ofTree? (t : Tree) : Option AttributeFilter :=
  match fields? ["attribute".toList, "filter".toList] t with
  | some [attr, filter] => do
      return ⟨← required? text? attr, ← required? SearchFilter.ofTree? filter⟩
  | _ => none

def FilterChanges.tree (c : FilterChanges) : Tree :=
  .record
    [("add".toList, .list (c.add.map AttributeFilter.tree)),
      ("delete".toList, .list (c.delete.map AttributeFilter.tree))]

def FilterChanges.ofTree? (t : Tree) : Option FilterChanges :=
  match fields? ["add".toList, "delete".toList] t with
  | some [add, delete] => do
      return ⟨← required? (list? AttributeFilter.ofTree?) add,
        ← required? (list? AttributeFilter.ofTree?) delete⟩
  | _ => none

namespace Value

def tree : Value → Tree
  | names l => form "DistinguishedNames".toList l.tree
  | binding b => form "AttributeBind".toList b.tree
  | days s => form "DayOfWeek".toList s.tree
  | time t => form "TimeOfDay".toList t.tree
  | addresses l => form "IpAddresses".toList (ofTexts l.addresses)
  | domains l => form "DomainNames".toList (ofTexts l.names)
  | strength s => form "SecurityStrength".toList s.tree
  | method m => form "AuthMethod".toList m.tree
  | objectIds l => form "ObjectIdentifiers".toList (.list (l.items.map ObjectId.tree))
  | attributes l => form "Attributes".toList l.tree
  | scope s => form "Scope".toList s.tree
  | filter f => form "Filter".toList f.tree
  | changes c => form "AttributeFilters".toList c.tree

/-- The value whose form has this name, read from the content of the form. -/
def ofContent? (name : Text) (content : Tree) : Option Value :=
  if name == "DistinguishedNames".toList then (NameList.ofTree? content).map names
  else if name == "AttributeBind".toList then (AttributeBinding.ofTree? content).map binding
  else if name == "DayOfWeek".toList then (DaySet.ofTree? content).map days
  else if name == "TimeOfDay".toList then (ClockTime.ofTree? content).map time
  else if name == "IpAddresses".toList then
    (list? text? content).map fun texts => addresses ⟨texts⟩
  else if name == "DomainNames".toList then
    (list? text? content).map fun texts => domains ⟨texts⟩
  else if name == "SecurityStrength".toList then (Strength.ofTree? content).map strength
  else if name == "AuthMethod".toList then (AuthMethod.ofTree? content).map method
  else if name == "ObjectIdentifiers".toList then
    (list? ObjectId.ofTree? content).map fun ids => objectIds ⟨ids⟩
  else if name == "Attributes".toList then (AttributeList.ofTree? content).map attributes
  else if name == "Scope".toList then (SearchScope.ofTree? content).map scope
  else if name == "Filter".toList then (SearchFilter.ofTree? content).map filter
  else if name == "AttributeFilters".toList then (FilterChanges.ofTree? content).map changes
  else none

def ofTree? (t : Tree) : Option Value :=
  (form? t).bind fun f => ofContent? f.1 f.2

end Value

end DirectoryAccess
