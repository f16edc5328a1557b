import DirectoryAccess.Error

/-!
# Search scopes

How far below its base a search reaches.  A scope has a long name, used in
rules, and a short one, used in the URL of a search; both are read everywhere.
-/

namespace DirectoryAccess

inductive SearchScope where
  | base
  | oneLevel
  | subtree
  | subordinate
deriving DecidableEq, Repr, Inhabited

namespace SearchScope

/-- The name of a scope in a rule. -/
def name : SearchScope → Text
  | base => "base".toList
  | oneLevel => "onelevel".toList
  | subtree => "subtree".toList
  | subordinate => "subordinate".toList

/-- The name of a scope in a URL. -/
def urlName : SearchScope → Text
  | base => "base".toList
  | oneLevel => "one".toList
  | subtree => "sub".toList
  | subordinate => "subordinate".toList

def spellings : List (Text × SearchScope) :=
  [("base".toList, base), ("onelevel".toList, oneLevel), ("one".toList, oneLevel),
    ("subtree".toList, subtree), ("sub".toList, subtree),
    ("subordinate".toList, subordinate), ("children".toList, subordinate)]

def read (t : Text) : Except ValueFault SearchScope :=
  let spelling := Text.lower (Text.trim t)
  match spellings.lookup spelling with
  | some scope => .ok scope
  | none => .error (.unknownScope spelling)

def parse (t : Text) : Except Error SearchScope :=
  (read t).mapError (.invalidValue (.keyword (.target .targetScope)))

end SearchScope

end DirectoryAccess
