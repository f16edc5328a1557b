import DirectoryAccess.BindRule.Basic
import DirectoryAccess.Permission
import DirectoryAccess.TargetRule.Basic
import DirectoryAccess.Text.Quotes

/-!
# Instructions

An access control instruction names a target, carries a label, and states who
has which permission: pairs of a permission and a bind rule.
-/

namespace DirectoryAccess

/-- A permission and the requesters that have it. -/
structure Statement where
  permission : Permission
  bindRule : BindRule
deriving DecidableEq, Repr, Inhabited

namespace Statement

/-- Writes a statement with the semicolon that ends it. -/
def text (s : Statement) : Text :=
  s.permission.text ++ ' ' :: s.bindRule.text ++ [';']

def check (s : Statement) : Except Error Unit :=
  Error.verdict (Error.findings s.permission.check ++ Error.findings s.bindRule.check)

end Statement

structure Policy where
  statements : List Statement
deriving DecidableEq, Repr, Inhabited

namespace Policy

def empty : Policy :=
  ⟨[]⟩

def push (p : Policy) (s : Statement) : Policy :=
  ⟨p.statements ++ [s]⟩

def text (p : Policy) : Text :=
  Text.join [' '] (p.statements.map Statement.text)

/-- The verdict on a policy: it has statements, and each of them is in order. -/
def check (p : Policy) : Except Error Unit :=
  if p.statements.isEmpty then .error (.rule .noStatements)
  else Error.verdict (p.statements.flatMap fun s => Error.findings s.check)

end Policy

structure Instruction where
  targetRule : Option TargetRule
  label : Text
  policy : Policy
deriving DecidableEq, Repr, Inhabited

namespace Instruction

def make (label : Text) : Instruction :=
  ⟨none, label, .empty⟩

/-- Sets the target rule; one without a clause is none. -/
def setTargetRule (i : Instruction) (r : TargetRule) : Instruction :=
  { i with targetRule := if r.clauses.isEmpty then none else some r }

def push (i : Instruction) (s : Statement) : Instruction :=
  { i with policy := i.policy.push s }

def text (i : Instruction) : Text :=
  ((i.targetRule.map TargetRule.text).getD []) ++ '(' :: versionMarker ++ " acl ".toList ++
    Text.quote i.label ++ "; ".toList ++ i.policy.text ++ [')']

def labelFaults (label : Text) : List Error :=
  if Text.isBlankText label then [.rule .emptyLabel]
  -- A backslash at the end is no open quote, but would escape the closing one.
  else if !Text.hasNoOpenQuote label then [.rule (.openLabel label)]
  else []

/-- The verdict on an instruction: on its label, its target rule and its policy. -/
def check (i : Instruction) : Except Error Unit :=
  Error.verdict <|
    labelFaults i.label ++ ((i.targetRule.map fun r => Error.findings r.check).getD []) ++
      Error.findings i.policy.check

end Instruction

end DirectoryAccess
