import DirectoryAccess.Text.Basic

/-!
# Comparison operators

The six comparisons of the rule language, their spellings and complements.
-/

namespace DirectoryAccess

/-- A comparison between the context of a request and a value. -/
inductive Operator where
  | eq
  | ne
  | lt
  | le
  | gt
  | ge
deriving DecidableEq, Repr, Inhabited

namespace Operator

def all : List Operator :=
  [eq, ne, lt, le, gt, ge]

def symbol : Operator → Text
  | eq => "=".toList
  | ne => "!=".toList
  | lt => "<".toList
  | le => "<=".toList
  | gt => ">".toList
  | ge => ">=".toList

def description : Operator → Text
  | eq => "Equal To".toList
  | ne => "Not Equal To".toList
  | lt => "Less Than".toList
  | le => "Less Than Or Equal".toList
  | gt => "Greater Than".toList
  | ge => "Greater Than Or Equal".toList

/-- The operator that holds exactly where this one fails. -/
def negate : Operator → Operator
  | eq => ne
  | ne => eq
  | lt => ge
  | ge => lt
  | gt => le
  | le => gt

/-- The operator spelled by a text, white space around it left aside. -/
def ofSymbol? (t : Text) : Option Operator :=
  all.find? fun op => op.symbol == Text.trim t

/--
The operator at the front of a text and what follows it.  The spellings of two
characters are tried first, so that `<=` is never read as `<`.
-/
def read? : Text → Option (Operator × Text)
  | '<' :: '=' :: rest => some (le, rest)
  | '>' :: '=' :: rest => some (ge, rest)
  | '!' :: '=' :: rest => some (ne, rest)
  | '=' :: rest => some (eq, rest)
  | '<' :: rest => some (lt, rest)
  | '>' :: rest => some (gt, rest)
  | _ => none

theorem negate_negate (op : Operator) : op.negate.negate = op := by
  cases op <;> rfl

end Operator

end DirectoryAccess
