import DirectoryAccess.BindRule.Parser
import DirectoryAccess.Instruction.Basic
import DirectoryAccess.TargetRule.Parser
import DirectoryAccess.Text.Split

/-!
# Reading instructions

An instruction is `targets(version 3.0; acl "label"; statements)`.  The marks
are found one after another: the version first, then the label, then the two
ends of the statements, which semicolons outside quotes separate.
-/

namespace DirectoryAccess

namespace Statement

/-- Reads a permission and a bind rule, without the semicolon, and keeps the journal. -/
def journaledParse (limit : Nat) (t : Text) : Journaled Error Statement :=
  let text := Text.trim t
  match Text.cut? ')' text with
  | none => .fail (.grammar (.noPermission text))
  | some (front, rule) => do
      let permission ← .lift (Permission.parse (front ++ [')']))
      let bindRule ← BindRule.journaledParse limit rule
      return ⟨permission, bindRule⟩

def parseWith (limit : Nat) (t : Text) : Except Error Statement :=
  (journaledParse limit t).result

end Statement

namespace Policy

/-- The segments of a text between semicolons outside quotes: trimmed, without the empty ones. -/
def segments (t : Text) : List Text :=
  ((Text.splitUnquoted ';' t).map Text.trim).filter fun s => !s.isEmpty

def segmentEntry (segment : Text) : Entry :=
  ⟨.trace, "permission bind rule segment `".toList ++ segment ++ "`".toList⟩

def pushSegments (limit : Nat) (p : Policy) : List Text → Journaled Error Policy
  | [] => pure p
  | segment :: rest => do
      .leave [segmentEntry segment]
      let statement ← Statement.journaledParse limit segment
      pushSegments limit (p.push statement) rest

def journaledParse (limit : Nat) (t : Text) : Journaled Error Policy := do
  let policy ← pushSegments limit empty (segments t)
  if policy.statements.isEmpty then .fail (.grammar (.noStatement (Text.trim t)))
  else return policy

def parseWith (limit : Nat) (t : Text) : Except Error Policy :=
  (journaledParse limit t).result

end Policy

namespace Instruction

/-- Reads the target rule, if the text in front of the instruction's body is not blank. -/
def journaledTarget (t : Text) : Journaled Error (Option TargetRule) :=
  let targets := Text.trim t
  if targets.isEmpty then pure none
  else do
    let rule ← TargetRule.journaledParse targets
    return some rule

/-- Reads the label behind the version: the label and what follows its closing quote. -/
def readLabel (t : Text) : Except Error (Text × Text) :=
  match Text.stripFold? "acl".toList (Text.trimStart t) with
  | none => .error (.grammar .noLabelKeyword)
  | some rest =>
      match Text.cutQuote? rest with
      | none => .error (.grammar .noLabel)
      | some (before, quoted) =>
          if !Text.isBlankText before then .error (.grammar .noLabel)
          else
            match Text.cutQuote? quoted with
            | none => .error (.grammar .openLabel)
            | some (label, after) =>
                if Text.isBlankText label then .error (.rule .emptyLabel)
                else .ok (label, after)

/-- Takes the statements out of what follows the label. -/
def readBody (label t : Text) : Except Error Text :=
  match Text.strip? [';'] (Text.trimStart t) with
  | none => .error (.grammar (.noLabelEnd label))
  | some body =>
      match Text.stripLast? ')' (Text.trimEnd body) with
      | none => .error (.grammar (.noInstructionEnd label))
      | some statements => .ok statements

/-- Reads an instruction whose parentheses nest no deeper than `limit`, and keeps the journal. -/
def journaledParse (limit : Nat) (t : Text) : Journaled Error Instruction :=
  let text := Text.trim t
  -- The marker is looked for in the values of target rules as well.
  match Text.cutFold? versionMarker text with
  | none => .fail (.grammar (.noVersion text))
  | some (front, behind) =>
      match Text.stripLast? '(' (Text.trimEnd front) with
      | none => .fail (.grammar .noOpenParen)
      | some targets => do
          let targetRule ← journaledTarget targets
          let (label, after) ← .lift (readLabel behind)
          let body ← .lift (readBody label after)
          let policy ← Policy.journaledParse limit body
          return ⟨targetRule, label, policy⟩

def parseWith (limit : Nat) (t : Text) : Except Error Instruction :=
  (journaledParse limit t).result

def parse (t : Text) : Except Error Instruction :=
  parseWith defaultDepth t

/-- The canonical text of an instruction that is in order, with the journal. -/
def journaledCanonical (t : Text) : Journaled Error Text := do
  let i ← journaledParse defaultDepth t
  .lift i.check
  return i.text

def canonical (t : Text) : Except Error Text :=
  (journaledCanonical t).result

end Instruction

end DirectoryAccess
