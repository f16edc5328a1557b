import DirectoryAccess.Instruction.Basic
import DirectoryAccess.Tree.Values

/-!
# Trees of rules and instructions

The tree of every rule, permission and instruction and the reading of such
trees.  As with values, reading checks the form only.
-/

namespace DirectoryAccess

open DirectoryAccess.Tree

namespace Condition

def fieldNames : List Text :=
  ["keyword".toList, "operator".toList, "expression".toList, "parenthesized".toList]

def tree (c : Condition) : Tree :=
  .record (fieldNames.zip [c.keyword.tree, c.op.tree, c.value.tree, .bool c.parenthesized])

def ofTree? (t : Tree) : Option Condition :=
  match fields? fieldNames t with
  | some [keyword, op, value, parenthesized] => do
      return ⟨← required? BindKeyword.ofTree? keyword, ← required? Operator.ofTree? op,
        ← required? Value.ofTree? value, ← required? bool? parenthesized⟩
  | _ => none

end Condition

namespace BindRule

def groupTree (name : Text) (operands : List Tree) (parenthesized : Bool) : Tree :=
  form name
    (.record [("operands".toList, .list operands), ("parenthesized".toList, .bool parenthesized)])

mutual

def tree : BindRule → Tree
  | condition c => form "Item".toList c.tree
  | and os p => groupTree "And".toList (trees os) p
  | or os p => groupTree "Or".toList (trees os) p
  | not o => form "Not".toList (tree o)

def trees : List BindRule → List Tree
  | [] => []
  | r :: rs => tree r :: trees rs

end

mutual

def ofTree? : Tree → Option BindRule
  | .record [(name, content)] =>
      if name == "Item".toList then (Condition.ofTree? content).map condition
      else if name == "Not".toList then (ofTree? content).map not
      else if name == "And".toList then (groupOf? content).map fun g => and g.1 g.2
      else if name == "Or".toList then (groupOf? content).map fun g => or g.1 g.2
      else none
  | _ => none

/-- The operands of a group and whether it stands in parentheses. -/
def groupOf? : Tree → Option (List BindRule × Bool)
  | .record fields => do
      return (← operandsOf? fields,
        ← required? bool? (fields.lookup "parenthesized".toList))
  | .list [operands, parenthesized] => do
      return (← ofList? operands, ← bool? parenthesized)
  | _ => none

/-- The rules of the field that holds the operands. -/
def operandsOf? : List (Text × Tree) → Option (List BindRule)
  | [] => none
  | (name, content) :: fields =>
      if name == "operands".toList then ofList? content else operandsOf? fields

def ofList? : Tree → Option (List BindRule)
  | .list items => ofTrees? items
  | _ => none

def ofTrees? : List Tree → Option (List BindRule)
  | [] => some []
  | t :: ts => do
      let r ← ofTree? t
      let rs ← ofTrees? ts
      return r :: rs

end

end BindRule

namespace Clause

def fieldNames : List Text :=
  ["keyword".toList, "operator".toList, "expression".toList]

def tree (c : Clause) : Tree :=
  .record (fieldNames.zip [c.keyword.tree, c.op.tree, c.value.tree])

def ofTree? (t : Tree) : Option Clause :=
  match fields? fieldNames t with
  | some [keyword, op, value] => do
      return ⟨← required? TargetKeyword.ofTree? keyword, ← required? Operator.ofTree? op,
        ← required? Value.ofTree? value⟩
  | _ => none

end Clause

def TargetRule.tree (r : TargetRule) : Tree :=
  form "items".toList (.list (r.clauses.map Clause.tree))

def TargetRule.ofTree? (t : Tree) : Option TargetRule :=
  match fields? ["items".toList] t with
  | some [items] => (required? (list? Clause.ofTree?) items).map TargetRule.mk
  | _ => none

def Disposition.treeName : Disposition → Text
  | allow => "Allow".toList
  | deny => "Deny".toList

def Permission.tree (p : Permission) : Tree :=
  .record [("disposition".toList, .text p.disposition.treeName),
    ("rights".toList, p.rights.set.tree)]

def Rights.ofTree? (t : Tree) : Option Rights :=
  (BitSet.ofTree? t).map Rights.mk

def Permission.ofTree? (t : Tree) : Option Permission :=
  match fields? ["disposition".toList, "rights".toList] t with
  | some [disposition, rights] => do
      return ⟨← required? (member? [.allow, .deny] Disposition.treeName) disposition,
        ← required? Rights.ofTree? rights⟩
  | _ => none

def Statement.tree (s : Statement) : Tree :=
  .record [("permission".toList, s.permission.tree), ("bind_rule".toList, s.bindRule.tree)]

def Statement.ofTree? (t : Tree) : Option Statement :=
  match fields? ["permission".toList, "bind_rule".toList] t with
  | some [permission, rule] => do
      return ⟨← required? Permission.ofTree? permission, ← required? BindRule.ofTree? rule⟩
  | _ => none

def Policy.tree (p : Policy) : Tree :=
  form "items".toList (.list (p.statements.map Statement.tree))

def Policy.ofTree? (t : Tree) : Option Policy :=
  match fields? ["items".toList] t with
  | some [items] => (required? (list? Statement.ofTree?) items).map Policy.mk
  | _ => none

namespace Instruction

def fieldNames : List Text :=
  ["target_rule".toList, "acl".toList, "permission_bind_rule".toList]

def tree (i : Instruction) : Tree :=
  .record (fieldNames.zip [ofOption TargetRule.tree i.targetRule, .text i.label, i.policy.tree])

def ofTree? (t : Tree) : Option Instruction :=
  match fields? fieldNames t with
  | some [rule, label, policy] => do
      return ⟨← optional? TargetRule.ofTree? rule, ← required? text? label,
        ← required? Policy.ofTree? policy⟩
  | _ => none

end Instruction

end DirectoryAccess
