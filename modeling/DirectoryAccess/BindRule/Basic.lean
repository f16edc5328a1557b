import DirectoryAccess.Value.Basic

/-!
# Bind rules

A bind rule is a Boolean combination of conditions on the requester.  It keeps
which of its parts were written in parentheses.  Whether operators suit their
keywords, and whether negations stand where they may, is not a matter of the
type: `faults` lists what is wrong with a rule.
-/

namespace DirectoryAccess

/-- A comparison of the requester's context with a value. -/
structure Condition where
  keyword : BindKeyword
  op : Operator
  value : Value
  parenthesized : Bool
deriving DecidableEq, Repr, Inhabited

namespace Condition

/-- A condition without parentheses. -/
def make (keyword : BindKeyword) (op : Operator) (value : Value) : Condition :=
  ⟨keyword, op, value, false⟩

/-- Writes a condition without its parentheses. -/
def text (c : Condition) : Text :=
  c.keyword.name ++ ' ' :: c.op.symbol ++ ' ' :: Text.quote c.value.text

/-- What is wrong with a condition: first its operator, then its value. -/
def faults (c : Condition) : List Error :=
  (if c.keyword.permits c.op then []
    else [.operatorNotPermitted (.bind c.keyword) c.op]) ++
  (if !c.value.fitsBind c.keyword then
      [.invalidValue (.keyword (.bind c.keyword)) (.wrongShape c.value.text (.bind c.keyword))]
    else if c.value.isEmpty then [.invalidValue (.keyword (.bind c.keyword)) .empty]
    else [])

def check (c : Condition) : Except Error Unit :=
  Error.verdict c.faults

end Condition

/-- A Boolean combination of conditions, with the parentheses it was written with. -/
inductive BindRule where
  | condition (c : Condition)
  | and (operands : List BindRule) (parenthesized : Bool)
  | or (operands : List BindRule) (parenthesized : Bool)
  | not (operand : BindRule)
deriving Repr, Inhabited

namespace BindRule

mutual

def decEq : (a b : BindRule) → Decidable (a = b)
  | condition c, condition d => decidable_of_iff (c = d) (by simp)
  | and as p, and bs q =>
      match decEqList as bs with
      | isTrue h => decidable_of_iff (p = q) (by simp [h])
      | isFalse h => isFalse (by simp [h])
  | or as p, or bs q =>
      match decEqList as bs with
      | isTrue h => decidable_of_iff (p = q) (by simp [h])
      | isFalse h => isFalse (by simp [h])
  | not a, not b =>
      match decEq a b with
      | isTrue h => isTrue (by rw [h])
      | isFalse h => isFalse (by simp [h])
  | condition _, and _ _ => isFalse (by simp)
  | condition _, or _ _ => isFalse (by simp)
  | condition _, not _ => isFalse (by simp)
  | and _ _, condition _ => isFalse (by simp)
  | and _ _, or _ _ => isFalse (by simp)
  | and _ _, not _ => isFalse (by simp)
  | or _ _, condition _ => isFalse (by simp)
  | or _ _, and _ _ => isFalse (by simp)
  | or _ _, not _ => isFalse (by simp)
  | not _, condition _ => isFalse (by simp)
  | not _, and _ _ => isFalse (by simp)
  | not _, or _ _ => isFalse (by simp)

def decEqList : (as bs : List BindRule) → Decidable (as = bs)
  | [], [] => isTrue rfl
  | [], _ :: _ => isFalse (by simp)
  | _ :: _, [] => isFalse (by simp)
  | a :: as, b :: bs =>
      match decEq a b with
      | isFalse h => isFalse (by simp [h])
      | isTrue h =>
          match decEqList as bs with
          | isTrue hs => isTrue (by rw [h, hs])
          | isFalse hs => isFalse (by simp [hs])

end

instance : DecidableEq BindRule :=
  decEq

def isNot : BindRule → Bool
  | not _ => true
  | _ => false

/-- Holds for the parts that carry parentheses of their own; a negation has none. -/
def isParenthesized : BindRule → Bool
  | condition c => c.parenthesized
  | and _ p => p
  | or _ p => p
  | not _ => false

/-- The rule as written in parentheses; a negation passes them on to what it negates. -/
def inParens : BindRule → BindRule
  | condition c => condition { c with parenthesized := true }
  | and operands _ => and operands true
  | or operands _ => or operands true
  | not operand => not operand.inParens

def operands : BindRule → List BindRule
  | and os _ => os
  | or os _ => os
  | _ => []

mutual

/-- The conditions of a rule from left to right. -/
def conditions : BindRule → List Condition
  | condition c => [c]
  | and os _ => conditionsOfAll os
  | or os _ => conditionsOfAll os
  | not o => conditions o

def conditionsOfAll : List BindRule → List Condition
  | [] => []
  | r :: rs => conditions r ++ conditionsOfAll rs

end

/-- Holds for a conjunction or disjunction without parentheses. -/
def isOpenGroup : BindRule → Bool
  | and _ p => !p
  | or _ p => !p
  | _ => false

/-- The text of a rule that stands inside another: an open group gets parentheses there. -/
def asOperand (r : BindRule) (text : Text) : Text :=
  Text.enclose r.isOpenGroup text

mutual

def text : BindRule → Text
  | condition c => Text.enclose c.parenthesized c.text
  | and os p => Text.enclose p (Text.join " AND ".toList (operandTexts os))
  | or os p => Text.enclose p (Text.join " OR ".toList (operandTexts os))
  | not o => "NOT ".toList ++ asOperand o (text o)

def operandTexts : List BindRule → List Text
  | [] => []
  | r :: rs => asOperand r (text r) :: operandTexts rs

end

def finding (holds : Bool) (fault : RuleFault) : List Error :=
  if holds then [.rule fault] else []

mutual

/-- What is wrong inside a rule, from left to right and from the outside in. -/
def faults : BindRule → List Error
  | condition c => c.faults
  | and os _ =>
      finding os.isEmpty .emptyAnd ++
        finding ((os.head?.map isNot).getD false) .firstNegated ++ faultsOfAll os
  | or os _ =>
      finding os.isEmpty .emptyOr ++ finding (os.any isNot) .notInOr ++ faultsOfAll os
  | not o => finding o.isNot .notWrapsNot ++ faults o

def faultsOfAll : List BindRule → List Error
  | [] => []
  | r :: rs => faults r ++ faultsOfAll rs

end

/-- The verdict on a rule that stands alone, where a negation may not. -/
def check (r : BindRule) : Except Error Unit :=
  Error.verdict (finding r.isNot .notStandsAlone ++ r.faults)

/-- The negation of a rule that is no negation. -/
def negate (r : BindRule) : Except Error BindRule :=
  if r.isNot then .error (.rule .notWrapsNot) else .ok (not r)

def push (r : BindRule) (operand : BindRule) : Except Error BindRule :=
  match r with
  | and os p => .ok (and (os ++ [operand]) p)
  | or os p => .ok (or (os ++ [operand]) p)
  | _ => .error (.rule (.noPlaceForOperand r.text))

end BindRule

end DirectoryAccess
