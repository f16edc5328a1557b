import DirectoryAccess.Tree.Rules
import DirectoryAccess.Proofs.Tree.Values

/-!
# Trees of rules are faithful

Rules, permissions and instructions are given back by the reader of their trees.
The rules of the bind grammar go by their own structure: a rule and the operands
of a group are written together and read together.
-/

namespace DirectoryAccess

open DirectoryAccess.Tree

theorem Condition.isFaithful_tree : IsFaithful Condition.tree Condition.ofTree? := by
  intro c
  rw [tree, ofTree?, fields?_record (by decide) rfl]
  simp only [List.map_cons, List.map_nil, required?, BindKeyword.isFaithful_tree c.keyword,
    Operator.isFaithful_tree c.op, Value.isFaithful_tree c.value, isFaithful_bool c.parenthesized]
  rfl

namespace BindRule

/-- The record of a group is read once its operands are. -/
theorem groupOf?_of_ofTrees? {operands : List Tree} {rules : List BindRule}
    (h : ofTrees? operands = some rules) (parenthesized : Bool) :
    groupOf?
        (.record [("operands".toList, .list operands),
          ("parenthesized".toList, .bool parenthesized)])
      = some (rules, parenthesized) := by
  have hoperands : operandsOf? [("operands".toList, .list operands),
      ("parenthesized".toList, .bool parenthesized)] = some rules := by
    rw [operandsOf?, if_pos (by decide), ofList?, h]
  rw [groupOf?, hoperands]
  rfl

mutual

theorem ofTree?_tree (r : BindRule) : ofTree? (tree r) = some r := by
  cases r with
  | condition c =>
      rw [tree, form, ofTree?, if_pos (by decide), Condition.isFaithful_tree c, Option.map_some]
  | and os p =>
      rw [tree, groupTree, form, ofTree?, if_neg (by decide), if_neg (by decide),
        if_pos (by decide), groupOf?_of_ofTrees? (ofTrees?_trees os), Option.map_some]
  | or os p =>
      rw [tree, groupTree, form, ofTree?, if_neg (by decide), if_neg (by decide),
        if_neg (by decide), if_pos (by decide), groupOf?_of_ofTrees? (ofTrees?_trees os),
        Option.map_some]
  | not o =>
      rw [tree, form, ofTree?, if_neg (by decide), if_pos (by decide), ofTree?_tree o,
        Option.map_some]

theorem ofTrees?_trees (rs : List BindRule) : ofTrees? (trees rs) = some rs := by
  cases rs with
  | nil => rw [trees, ofTrees?]
  | cons r rs => rw [trees, ofTrees?, ofTree?_tree r, ofTrees?_trees rs]; rfl

end

theorem isFaithful_tree : IsFaithful BindRule.tree BindRule.ofTree? :=
  ofTree?_tree

end BindRule

theorem Clause.isFaithful_tree : IsFaithful Clause.tree Clause.ofTree? := by
  intro c
  rw [tree, ofTree?, fields?_record (by decide) rfl]
  simp only [List.map_cons, List.map_nil, required?, TargetKeyword.isFaithful_tree c.keyword,
    Operator.isFaithful_tree c.op, Value.isFaithful_tree c.value]
  rfl

theorem TargetRule.isFaithful_tree : IsFaithful TargetRule.tree TargetRule.ofTree? := by
  intro r
  exact congrArg (Option.map TargetRule.mk) (Clause.isFaithful_tree.list r.clauses)

theorem Permission.isFaithful_tree : IsFaithful Permission.tree Permission.ofTree? := by
  intro p
  have hdisposition :
      member? [.allow, .deny] Disposition.treeName (.text p.disposition.treeName)
        = some p.disposition := by
    cases p.disposition <;> rfl
  have hrights : Rights.ofTree? p.rights.set.tree = some p.rights := by
    rw [Rights.ofTree?, BitSet.isFaithful_tree p.rights.set, Option.map_some]
  show (do
    let disposition ←
      member? [.allow, .deny] Disposition.treeName (.text p.disposition.treeName)
    let rights ← Rights.ofTree? p.rights.set.tree
    return Permission.mk disposition rights) = some p
  rw [hdisposition, hrights]
  rfl

theorem Statement.isFaithful_tree : IsFaithful Statement.tree Statement.ofTree? := by
  intro s
  show (do
    let permission ← Permission.ofTree? s.permission.tree
    let rule ← BindRule.ofTree? s.bindRule.tree
    return Statement.mk permission rule) = some s
  rw [Permission.isFaithful_tree s.permission, BindRule.isFaithful_tree s.bindRule]
  rfl

theorem Policy.isFaithful_tree : IsFaithful Policy.tree Policy.ofTree? := by
  intro p
  exact congrArg (Option.map Policy.mk) (Statement.isFaithful_tree.list p.statements)

theorem Instruction.isFaithful_tree : IsFaithful Instruction.tree Instruction.ofTree? := by
  intro i
  have hrule : IsFaithful (ofOption TargetRule.tree) (option? TargetRule.ofTree?) :=
    TargetRule.isFaithful_tree.option fun _ => Tree.noConfusion
  rw [tree, ofTree?, fields?_record (by decide) rfl]
  simp only [List.map_cons, List.map_nil, required?, optional?, isFaithful_text i.label,
    Policy.isFaithful_tree i.policy, hrule i.targetRule]
  rfl

/--
Reading the tree of an instruction, of a target rule, of a bind rule, of a
permission or of a value gives it back, so that each is determined by its tree.
-/
theorem trees_lose_nothing :
    ((∀ i : Instruction, Instruction.ofTree? i.tree = some i) ∧
      (∀ r : TargetRule, TargetRule.ofTree? r.tree = some r) ∧
      (∀ r : BindRule, BindRule.ofTree? r.tree = some r) ∧
      (∀ p : Permission, Permission.ofTree? p.tree = some p) ∧
      ∀ v : Value, Value.ofTree? v.tree = some v) ∧
    Function.Injective Instruction.tree ∧ Function.Injective TargetRule.tree ∧
      Function.Injective BindRule.tree ∧ Function.Injective Permission.tree ∧
      Function.Injective Value.tree := by
  refine ⟨⟨?_, ?_, ?_, ?_, ?_⟩, ?_, ?_, ?_, ?_, ?_⟩
  · exact Instruction.isFaithful_tree
  · exact TargetRule.isFaithful_tree
  · exact BindRule.isFaithful_tree
  · exact Permission.isFaithful_tree
  · exact Value.isFaithful_tree
  · exact Instruction.isFaithful_tree.injective
  · exact TargetRule.isFaithful_tree.injective
  · exact BindRule.isFaithful_tree.injective
  · exact Permission.isFaithful_tree.injective
  · exact Value.isFaithful_tree.injective

end DirectoryAccess
