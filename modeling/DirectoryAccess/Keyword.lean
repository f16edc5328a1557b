import DirectoryAccess.Operator

/-!
# Keywords

The left-hand sides of the rule language: the keywords of bind rules, which ask
about the requester, and those of target rules, which name what an instruction
governs.  A keyword fixes the operators that may follow it.
-/

namespace DirectoryAccess

inductive BindKeyword where
  | userDn
  | roleDn
  | groupDn
  | userAttr
  | groupAttr
  | ip
  | dns
  | dayOfWeek
  | timeOfDay
  | authMethod
  | ssf
deriving DecidableEq, Repr, Inhabited

namespace BindKeyword

def all : List BindKeyword :=
  [userDn, roleDn, groupDn, userAttr, groupAttr, ip, dns, dayOfWeek, timeOfDay, authMethod, ssf]

def name : BindKeyword → Text
  | userDn => "userdn".toList
  | roleDn => "roledn".toList
  | groupDn => "groupdn".toList
  | userAttr => "userattr".toList
  | groupAttr => "groupattr".toList
  | ip => "ip".toList
  | dns => "dns".toList
  | dayOfWeek => "dayofweek".toList
  | timeOfDay => "timeofday".toList
  | authMethod => "authmethod".toList
  | ssf => "ssf".toList

/-- The keyword spelled by a text, whatever its case and the white space around it. -/
def ofName? (t : Text) : Option BindKeyword :=
  all.find? fun k => k.name == Text.lower (Text.trim t)

/-- Times and strengths are ordered, all else is only equal or not. -/
def operators : BindKeyword → List Operator
  | timeOfDay => Operator.all
  | ssf => Operator.all
  | _ => [.eq, .ne]

def permits (k : BindKeyword) (op : Operator) : Bool :=
  k.operators.contains op

/-- Holds for the keywords whose values are distinguished names. -/
def isName : BindKeyword → Bool
  | userDn => true
  | roleDn => true
  | groupDn => true
  | _ => false

end BindKeyword

inductive TargetKeyword where
  | target
  | targetTo
  | targetFrom
  | targetAttr
  | targetControl
  | targetScope
  | targetFilter
  | targetAttrFilters
  | extOp
deriving DecidableEq, Repr, Inhabited

namespace TargetKeyword

def all : List TargetKeyword :=
  [target, targetTo, targetFrom, targetAttr, targetControl, targetScope, targetFilter,
    targetAttrFilters, extOp]

def name : TargetKeyword → Text
  | target => "target".toList
  | targetTo => "target_to".toList
  | targetFrom => "target_from".toList
  | targetAttr => "targetattr".toList
  | targetControl => "targetcontrol".toList
  | targetScope => "targetscope".toList
  | targetFilter => "targetfilter".toList
  | targetAttrFilters => "targattrfilters".toList
  | extOp => "extop".toList

def ofName? (t : Text) : Option TargetKeyword :=
  all.find? fun k => k.name == Text.lower (Text.trim t)

/-- A scope cannot be excluded, all else may be. -/
def operators : TargetKeyword → List Operator
  | targetScope => [.eq]
  | _ => [.eq, .ne]

def permits (k : TargetKeyword) (op : Operator) : Bool :=
  k.operators.contains op

def isName : TargetKeyword → Bool
  | target => true
  | targetTo => true
  | targetFrom => true
  | _ => false

/-- Holds for the keywords that write each value between quotes of its own. -/
def quotesEach : TargetKeyword → Bool
  | targetControl => true
  | extOp => true
  | k => k.isName

theorem mem_all (k : TargetKeyword) : k ∈ all := by
  cases k <;> decide

end TargetKeyword

inductive Keyword where
  | bind (k : BindKeyword)
  | target (k : TargetKeyword)
deriving DecidableEq, Repr, Inhabited

def Keyword.name : Keyword → Text
  | bind k => k.name
  | target k => k.name

end DirectoryAccess
