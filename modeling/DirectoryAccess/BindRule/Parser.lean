import DirectoryAccess.BindRule.Basic
import DirectoryAccess.Journal
import DirectoryAccess.Token.Scan

/-!
# Reading bind rules

A rule is an operand, or operands joined by `OR`, or operands joined by `AND`
and `AND NOT`; an operand is a condition, or a rule in parentheses.  The two
kinds of connective do not mix without parentheses, and parentheses nest no
deeper than a limit.  Each reader returns the tokens that it leaves.
-/

namespace DirectoryAccess

/-- What joins an operand to those before it. -/
inductive Connective where
  | and
  | andNot
  | or
deriving DecidableEq, Repr

def defaultDepth : Nat :=
  64

namespace BindRule

def spell (tokens : List BindToken) : Text :=
  Text.join [' '] (tokens.map BindToken.text)

/-- Cuts at the last operator: the tokens before it, the operator, the tokens after it. -/
def cutLastOperator? : List BindToken → Option (List BindToken × Operator × List BindToken)
  | [] => none
  | t :: ts =>
      match cutLastOperator? ts with
      | some (front, op, back) => some (t :: front, op, back)
      | none =>
          match t.kind with
          | .operator op => some ([], op, ts)
          | _ => none

def operatorEntry (k : BindKeyword) (op : Operator) : List Entry :=
  if k.permits op then []
  else
    [⟨.debug, "keeping `".toList ++ k.name ++ ' ' :: op.symbol ++
      "` for later validation".toList⟩]

/-- Reads a condition that is all of the tokens: a keyword, the last operator and a value. -/
def conditionOf (tokens : List BindToken) : Journaled Error BindRule :=
  match cutLastOperator? tokens with
  | none => .fail (.grammar (.noComparison (spell tokens)))
  | some (front, op, back) =>
      let raw := spell back
      match front with
      | [name] =>
          if raw.isEmpty then .fail (.grammar (.badCondition op (spell tokens)))
          else do
            let keyword ← .lift (BindKeyword.parse name.text)
            let value ← Value.journaledBind keyword raw
            .leave (operatorEntry keyword op)
            return condition (.make keyword op value)
      | _ => .fail (.grammar (.badCondition op (spell tokens)))

def endsCondition (t : BindToken) : Bool :=
  t.isConnective || t.kind == .openParen || t.kind == .closeParen

def conditionFrom (tokens : List BindToken) : Journaled Error (BindRule × List BindToken) := do
  let rule ← conditionOf (tokens.takeWhile fun t => !endsCondition t)
  return (rule, tokens.dropWhile fun t => !endsCondition t)

def placed : Connective × BindRule → BindRule
  | (.andNot, r) => not r
  | (_, r) => r

/-- Joins operands, of which all but the first come with a connective. -/
def joined (first : BindRule) (others : List (Connective × BindRule)) : Except Error BindRule :=
  if others.isEmpty then .ok first
  else if others.all fun o => o.1 == .or then .ok (or (first :: others.map placed) false)
  else if others.all fun o => o.1 != .or then .ok (and (first :: others.map placed) false)
  else .error (.grammar .mixedConnectives)

mutual

/-- Reads a rule up to the end of the tokens or a closing parenthesis. -/
def ruleWith (limit : Nat) :
    Nat → Nat → List BindToken → Journaled Error (BindRule × List BindToken)
  | 0, _, _ => .fail (.grammar .noOperand)
  | fuel + 1, depth, tokens => do
      let (first, rest) ← operandWith limit fuel depth tokens
      let (others, rest) ← othersWith limit fuel depth rest
      let rule ← .lift (joined first others)
      return (rule, rest)

def operandWith (limit : Nat) :
    Nat → Nat → List BindToken → Journaled Error (BindRule × List BindToken)
  | 0, _, _ => .fail (.grammar .noOperand)
  | fuel + 1, depth, tokens =>
      match tokens with
      | [] => .fail (.grammar .endOfOperands)
      | t :: rest =>
          match t.kind with
          | .openParen =>
              if limit ≤ depth then .fail (.grammar (.tooDeep limit))
              else do
                let (inner, rest) ← ruleWith limit fuel (depth + 1) rest
                match rest with
                | close :: after =>
                    if close.kind == .closeParen then return (inner.inParens, after)
                    else .fail (.grammar .noClosingParen)
                | [] => .fail (.grammar .noClosingParen)
          | .value _ => conditionFrom tokens
          | _ => .fail (.grammar (.noOperandAt t.text))

/-- Reads connectives and operands up to the end of the tokens or a closing parenthesis. -/
def othersWith (limit : Nat) :
    Nat → Nat → List BindToken → Journaled Error (List (Connective × BindRule) × List BindToken)
  | 0, _, _ => .fail (.grammar .noOperand)
  | fuel + 1, depth, tokens =>
      let more (c : Connective) (rest : List BindToken) := do
        let (operand, rest) ← operandWith limit fuel depth rest
        let (others, rest) ← othersWith limit fuel depth rest
        return ((c, operand) :: others, rest)
      match tokens with
      | [] => return ([], [])
      | t :: rest =>
          match t.kind with
          | .closeParen => return ([], tokens)
          | .and => more .and rest
          | .or => more .or rest
          | .andNot => more .andNot rest
          | .not => .fail (.grammar .notWithoutAnd)
          | _ => .fail (.grammar (.noConnective t.text))

end

/-- Steps that suffice for tokens: each of them takes at most two. -/
def steps (tokens : List BindToken) : Nat :=
  2 * tokens.length + 2

/-- Reads a rule that is all of the tokens; `whole` is the text that messages show. -/
def ofTokens (limit : Nat) (whole : Text) (tokens : List BindToken) : Journaled Error BindRule :=
  if tokens.length < 3 then .fail (.grammar (.tooFewTokens tokens.length whole))
  else do
    let (rule, rest) ← ruleWith limit (steps tokens) 0 tokens
    match rest with
    | [] => return rule
    | t :: _ => .fail (.grammar (.leftover t.text whole))

def tokensEntry (tokens : List BindToken) : Entry :=
  ⟨.trace, "bind rule tokens ".toList ++ Text.displayList (tokens.map BindToken.display)⟩

/-- Reads a rule in which parentheses nest no deeper than `limit`, and keeps the journal. -/
def journaledParse (limit : Nat) (t : Text) : Journaled Error BindRule := do
  let tokens ← .lift (BindToken.tokens t)
  .leave [tokensEntry tokens]
  ofTokens limit (Text.trim t) tokens

def parseWith (limit : Nat) (t : Text) : Except Error BindRule :=
  (journaledParse limit t).result

def parse (t : Text) : Except Error BindRule :=
  parseWith defaultDepth t

end BindRule

end DirectoryAccess
