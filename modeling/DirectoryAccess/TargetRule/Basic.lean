import DirectoryAccess.Value.Basic

/-!
# Target rules

A target rule is a list of clauses that name what an instruction governs.  A
rule that is built by pushing holds at most one clause for a keyword: later ones
are dropped with an entry in the journal.
-/

namespace DirectoryAccess

/-- A comparison of a property of the target with a value. -/
structure Clause where
  keyword : TargetKeyword
  op : Operator
  value : Value
deriving DecidableEq, Repr, Inhabited

namespace Clause

/-- The texts that a clause writes between quotes. -/
def quotedTexts (c : Clause) : List Text :=
  if c.keyword.quotesEach then c.value.texts else [c.value.text]

def text (c : Clause) : Text :=
  '(' :: c.keyword.name ++ ' ' :: c.op.symbol ++ ' ' ::
    Text.join " || ".toList (c.quotedTexts.map Text.quote) ++ [')']

def faults (c : Clause) : List Error :=
  (if c.keyword.permits c.op then []
    else [.operatorNotPermitted (.target c.keyword) c.op]) ++
  (if !c.value.fitsTarget c.keyword then
      [.invalidValue (.keyword (.target c.keyword))
        (.wrongShape c.value.text (.target c.keyword))]
    else if c.value.isEmpty then [.invalidValue (.keyword (.target c.keyword)) .empty]
    else [])

def check (c : Clause) : Except Error Unit :=
  Error.verdict c.faults

end Clause

structure TargetRule where
  clauses : List Clause
deriving DecidableEq, Repr, Inhabited

namespace TargetRule

def empty : TargetRule :=
  ⟨[]⟩

def size (r : TargetRule) : Nat :=
  r.clauses.length

/-- The first clause of a keyword. -/
def get? (r : TargetRule) (k : TargetKeyword) : Option Clause :=
  r.clauses.find? fun c => c.keyword == k

def contains (r : TargetRule) (k : TargetKeyword) : Bool :=
  r.clauses.any fun c => c.keyword == k

/-- Appends a clause unless its keyword is there or the rule is full. -/
def push (r : TargetRule) (c : Clause) : TargetRule :=
  if r.contains c.keyword then r
  else if mostClauses ≤ r.size then r
  else ⟨r.clauses ++ [c]⟩

def pushEntries (r : TargetRule) (c : Clause) : List Entry :=
  if r.contains c.keyword then
    [⟨.debug, "dropping duplicate target keyword `".toList ++ c.keyword.name ++ "`".toList⟩]
  else if mostClauses ≤ r.size then
    [⟨.debug, "dropping `".toList ++ c.keyword.name ++
      "`, target rule already holds ".toList ++ Text.ofNat mostClauses ++ " clauses".toList⟩]
  else []

def text (r : TargetRule) : Text :=
  r.clauses.flatMap Clause.text

/-- The verdict on a rule: on the number of its clauses and on each of them. -/
def check (r : TargetRule) : Except Error Unit :=
  -- Clauses with the same keyword are kept apart by `push` alone.
  Error.verdict <|
    (if mostClauses < r.size then [.rule (.tooManyClauses r.size)] else []) ++
      r.clauses.flatMap fun c => Error.findings c.check

end TargetRule

end DirectoryAccess
