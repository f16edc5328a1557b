import DirectoryAccess.Operator
import DirectoryAccess.Text.Displayed

/-!
# Tokens

What the two scanners cut a rule into.  A token of a bind rule keeps its own
spelling; a token of a target rule keeps only what the rule needs.  Both have a
displayed form, used where a message shows the tokens that were found.
-/

namespace DirectoryAccess

/-- What a token of a bind rule stands for. -/
inductive BindTokenKind where
  | and
  | or
  | not
  | andNot
  | openParen
  | closeParen
  | operator (op : Operator)
  | value (quoted : Bool)
deriving DecidableEq, Repr

/-- A token of a bind rule with its spelling; for a quoted value, the text between the quotes. -/
structure BindToken where
  kind : BindTokenKind
  text : Text
deriving DecidableEq, Repr

inductive TargetToken where
  | openParen
  | closeParen
  | operator (op : Operator)
  | bars
  | keyword (name : Text)
  | value (text : Text)
deriving DecidableEq, Repr

def Operator.display : Operator → Text
  | eq => "Eq".toList
  | ne => "Ne".toList
  | lt => "Lt".toList
  | le => "Le".toList
  | gt => "Gt".toList
  | ge => "Ge".toList

def BindTokenKind.display : BindTokenKind → Text
  | and => "And".toList
  | or => "Or".toList
  | not => "Not".toList
  | andNot => "AndNot".toList
  | openParen => "Open".toList
  | closeParen => "Close".toList
  | operator op => "Operator(".toList ++ op.display ++ ")".toList
  | value true => "Value \x7b quoted: true \x7d".toList
  | value false => "Value \x7b quoted: false \x7d".toList

def BindToken.display (t : BindToken) : Text :=
  "Token \x7b kind: ".toList ++ t.kind.display ++ ", text: ".toList ++ Text.display t.text ++
    " \x7d".toList

def BindToken.isConnective (t : BindToken) : Bool :=
  match t.kind with
  | .and => true
  | .or => true
  | .not => true
  | .andNot => true
  | _ => false

def TargetToken.display : TargetToken → Text
  | openParen => "Open".toList
  | closeParen => "Close".toList
  | operator op => "Operator(".toList ++ op.display ++ ")".toList
  | bars => "Pipe".toList
  | keyword name => "Keyword(".toList ++ Text.display name ++ ")".toList
  | value text => "Value(".toList ++ Text.display text ++ ")".toList

def TargetToken.displayFound : Option TargetToken → Text
  | none => "None".toList
  | some t => "Some(".toList ++ t.display ++ ")".toList

/-- The displayed form of a list, given that of its members. -/
def Text.displayList (items : List Text) : Text :=
  "[".toList ++ Text.join ", ".toList items ++ "]".toList

end DirectoryAccess
