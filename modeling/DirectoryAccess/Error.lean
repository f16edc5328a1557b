import DirectoryAccess.Keyword
import DirectoryAccess.Token.Basic

/-!
# Errors

Every way in which a text or a value can be refused, by cause.  The wording of
a cause is given once, by the functions that end in `message` and `reason`.
-/

namespace DirectoryAccess

/-- The two scanned languages. -/
inductive RuleKind where
  | bind
  | target
deriving DecidableEq, Repr

def RuleKind.name : RuleKind → String
  | bind => "bind rule"
  | target => "target rule"

/-- Where a scanner stopped: the text in front of the place and the text from it on. -/
structure Place where
  before : Text
  fragment : Text
deriving DecidableEq, Repr

/-- The number of the line of a place, from 1. -/
def Place.line (p : Place) : Nat :=
  1 + p.before.count '\n'

/-- The number of the character in its line, from 1. -/
def Place.column (p : Place) : Nat :=
  1 + (p.before.reverse.takeWhile (· != '\n')).length

/-- Why a text is no sequence of tokens. -/
inductive ScanFault where
  | noToken (rule : RuleKind) (place : Place)
  | openQuote (rule : RuleKind) (place : Place)
  | emptyToken (kind : BindTokenKind) (whole : Text)
deriving DecidableEq, Repr

def Place.message (p : Place) (context : String) : String :=
  s!"Error scanning at line {p.line} at column {p.column}, " ++
    s!"when handling {context}, fragment {String.ofList p.fragment}"

def ScanFault.message : ScanFault → String
  | noToken rule place => place.message rule.name
  | openQuote rule place => place.message (rule.name ++ "/unterminated quoted value")
  | emptyToken kind whole =>
      s!"empty {String.ofList kind.display} token in `{String.ofList whole}`"

/-- Why a sequence of tokens, or a text cut by fixed marks, has not the form it should have. -/
inductive GrammarFault where
  | unknownOperator (text : Text)
  | tooFewTokens (found : Nat) (whole : Text)
  | leftover (token whole : Text)
  | notWithoutAnd
  | noConnective (token : Text)
  | endOfOperands
  | tooDeep (limit : Nat)
  | noClosingParen
  | noOperandAt (token : Text)
  | noComparison (condition : Text)
  | badCondition (op : Operator) (condition : Text)
  | noOperand
  | mixedConnectives
  | noClause (found : Option TargetToken)
  | noEquality (keyword : TargetKeyword) (found : Option TargetToken)
  | noQuotedValue (keyword : TargetKeyword) (found : Option TargetToken)
  | noSeparator (keyword : TargetKeyword) (found : Option TargetToken)
  | notPermission (text : Text)
  | noRightsParen (text : Text)
  | unknownDisposition (name text : Text)
  | noPermission (text : Text)
  | noStatement (text : Text)
  | noVersion (text : Text)
  | noOpenParen
  | noLabelKeyword
  | noLabel
  | openLabel
  | noLabelEnd (label : Text)
  | noInstructionEnd (label : Text)
deriving DecidableEq, Repr

def versionMarker : Text :=
  "version 3.0;".toList

def GrammarFault.message : GrammarFault → String
  | unknownOperator text => s!"unrecognized comparison operator {String.ofList text}"
  | tooFewTokens found whole =>
      s!"a bind rule needs at least 3 tokens, found {found} in `{String.ofList whole}`"
  | leftover token whole =>
      s!"unbalanced parentheses, unexpected `{String.ofList token}` in `{String.ofList whole}`"
  | notWithoutAnd => "NOT must be preceded by AND"
  | noConnective token => s!"expected AND, AND NOT or OR before `{String.ofList token}`"
  | endOfOperands => "expected a bind rule operand, found end of input"
  | tooDeep limit => s!"parentheses nested deeper than {limit} levels"
  | noClosingParen => "unbalanced parentheses, missing `)`"
  | noOperandAt token => s!"expected a bind rule operand, found `{String.ofList token}`"
  | noComparison condition => s!"no comparison operator in `{String.ofList condition}`"
  | badCondition op condition =>
      s!"expected `keyword {String.ofList op.symbol} value`, found `{String.ofList condition}`"
  | noOperand => "expected a bind rule operand"
  | mixedConnectives =>
      "AND and OR cannot be mixed at one nesting level without parentheses"
  | noClause found =>
      s!"expected `(<keyword>` to open a target clause, found " ++
        String.ofList (TargetToken.displayFound found)
  | noEquality keyword found =>
      s!"expected `=` or `!=` after `{String.ofList keyword.name}`, found " ++
        String.ofList (TargetToken.displayFound found)
  | noQuotedValue keyword found =>
      s!"expected a quoted value for `{String.ofList keyword.name}`, found " ++
        String.ofList (TargetToken.displayFound found)
  | noSeparator keyword found =>
      s!"expected `||` or `)` in `{String.ofList keyword.name}` clause, found " ++
        String.ofList (TargetToken.displayFound found)
  | notPermission text =>
      s!"`{String.ofList text}` is not a permission, expected allow(<rights>) or deny(<rights>)"
  | noRightsParen text => s!"`{String.ofList text}` is missing `(` after the disposition"
  | unknownDisposition name text =>
      s!"unknown disposition `{String.ofList name}` in `{String.ofList text}`"
  | noPermission text => s!"expected a permission at the start of `{String.ofList text}`"
  | noStatement text => s!"no permission and bind rule found in `{String.ofList text}`"
  | noVersion text =>
      s!"`{String.ofList versionMarker}` not found in `{String.ofList text}`"
  | noOpenParen => s!"expected `(` before `{String.ofList versionMarker}`"
  | noLabelKeyword => s!"expected `acl` after `{String.ofList versionMarker}`"
  | noLabel => "expected a quoted acl label"
  | openLabel => "unterminated acl label"
  | noLabelEnd label => s!"expected `;` after acl \"{String.ofList label}\""
  | noInstructionEnd label =>
      s!"instruction `{String.ofList label}` is missing its closing `)`"

/-- What a refused value had to be a value of. -/
inductive Subject where
  | keyword (k : Keyword)
  | name
  | filter
  | objectId
  | inheritance
deriving DecidableEq, Repr

def Subject.text : Subject → Text
  | keyword k => k.name
  | name => "dn".toList
  | filter => "filter".toList
  | objectId => "oid".toList
  | inheritance => "inheritance".toList

/-- What the reader of search filters looked for where it stopped. -/
inductive FilterNeed where
  | parenthesis
  | attributeType
  | comparison
  | endOfText
deriving DecidableEq, Repr

def FilterNeed.code : FilterNeed → String
  | parenthesis => "Char"
  | attributeType => "TakeWhile1"
  | comparison => "Tag"
  | endOfText => "Eof"

/-- Why a text or a value does not suit its subject. -/
inductive ValueFault where
  | empty
  | wrongShape (value : Text) (keyword : Keyword)
  | notSingle (found : Nat)
  | within (subject : Subject) (fault : ValueFault)
  | emptyName
  | noEqualsSign (component whole : Text)
  | badAttributeType (attr whole : Text)
  | noAttributeValue (attr whole : Text)
  | wildcard (whole : Text)
  | noName (raw : Text)
  | urlNotPermitted (entry : Text)
  | emptyFilter
  | malformedFilter (whole fragment : Text) (need : FilterNeed)
  | tooFewArcs (text : Text)
  | nonNumericArc (text : Text)
  | leadingZero (text : Text)
  | noObjectId (raw : Text)
  | badLevel (token : Text)
  | noLevels
  | openInheritance (raw : Text)
  | noDotAfterInheritance (raw : Text)
  | noHash (raw : Text)
  | badAttribute (attr : Text)
  | noValueAfterHash (raw : Text)
  | inheritanceWithoutName (raw : Text)
  | starWithAttributes
  | noAttributes (raw : Text)
  | noOperationName (segment : Text)
  | badOperation (name : Text)
  | noColon (clause : Text)
  | noOperations (raw : Text)
  | unknownScope (name : Text)
  | noDay (raw : Text)
  | badClockTime (hour minute : Nat)
  | notFourDigits (raw : Text)
  | notStrength (raw : Text)
  | unknownMethod (raw : Text)
  | badAddress (address : Text)
  | noAddress (raw : Text)
  | longDomain (name : Text)
  | tooFewLabels (name : Text)
  | badLabel (label name : Text)
  | noDomain (raw : Text)
deriving DecidableEq, Repr

/-- The longest domain name, in bytes. -/
def longestDomain : Nat :=
  253

def twoDigits (n : Nat) : String :=
  if n < 10 then s!"0{n}" else s!"{n}"

def invalidValueMessage (subject : Subject) (reason : String) : String :=
  s!"Invalid `{String.ofList subject.text}` value: {reason}"

def ValueFault.reason : ValueFault → String
  | empty => "empty value"
  | wrongShape value keyword =>
      s!"`{String.ofList value}` is not a {String.ofList keyword.name} value"
  | notSingle found => s!"expected a single value, found {found}"
  | within subject fault => invalidValueMessage subject fault.reason
  | emptyName => "empty distinguished name"
  | noEqualsSign component whole =>
      s!"RDN component `{String.ofList component}` is missing `=` in {String.ofList whole}"
  | badAttributeType attr whole =>
      s!"bad attribute type `{String.ofList attr}` in {String.ofList whole}"
  | noAttributeValue attr whole =>
      s!"empty value for `{String.ofList attr}` in {String.ofList whole}"
  | wildcard whole => s!"wildcard not permitted in {String.ofList whole}"
  | noName raw => s!"no DN found in `{String.ofList raw}`"
  | urlNotPermitted entry => s!"LDAP URL `{String.ofList entry}` is not permitted here"
  | emptyFilter => "empty filter"
  | malformedFilter whole fragment need =>
      s!"malformed filter {String.ofList whole}: Parsing Error: " ++
        s!"Error \x7b input: {String.ofList (Text.display fragment)}, code: {need.code} \x7d"
  | tooFewArcs text => s!"`{String.ofList text}` needs at least two arcs"
  | nonNumericArc text => s!"`{String.ofList text}` has a non numeric arc"
  | leadingZero text => s!"`{String.ofList text}` has an arc with a leading zero"
  | noObjectId raw => s!"no object identifier in `{String.ofList raw}`"
  | badLevel token => s!"level `{String.ofList token}` is not a single digit 0-9"
  | noLevels => "no levels"
  | openInheritance raw => s!"unterminated inheritance in `{String.ofList raw}`"
  | noDotAfterInheritance raw =>
      s!"expected `.` after inheritance in `{String.ofList raw}`"
  | noHash raw => s!"expected `<attribute>#<value>` in `{String.ofList raw}`"
  | badAttribute attr => s!"bad attribute `{String.ofList attr}`"
  | noValueAfterHash raw => s!"no value after `#` in `{String.ofList raw}`"
  | inheritanceWithoutName raw =>
      s!"inheritance requires a DN bind type in `{String.ofList raw}`"
  | starWithAttributes => "`*` cannot be combined with attributes"
  | noAttributes raw => s!"no attributes in `{String.ofList raw}`"
  | noOperationName segment =>
      s!"expected `add=` or `delete=` in `{String.ofList segment}`"
  | badOperation name => s!"unexpected or repeated operation `{String.ofList name}`"
  | noColon clause => s!"expected `attribute:filter` in `{String.ofList clause}`"
  | noOperations raw => s!"no operations in `{String.ofList raw}`"
  | unknownScope name => s!"unknown scope `{String.ofList name}`"
  | noDay raw => s!"no day of week in `{String.ofList raw}`"
  | badClockTime hour minute => s!"{twoDigits hour}{twoDigits minute} is not a clock time"
  | notFourDigits raw => s!"`{String.ofList raw}` is not a four digit HHMM value"
  | notStrength raw => s!"`{String.ofList raw}` is not a number 0-256"
  | unknownMethod raw => s!"unknown authentication method `{String.ofList raw}`"
  | badAddress address =>
      s!"`{String.ofList address}` is not an IPv4 or IPv6 address pattern"
  | noAddress raw => s!"no address in `{String.ofList raw}`"
  | longDomain name => s!"`{String.ofList name}` is longer than {longestDomain} characters"
  | tooFewLabels name => s!"`{String.ofList name}` needs at least two labels"
  | badLabel label name => s!"bad label `{String.ofList label}` in `{String.ofList name}`"
  | noDomain raw => s!"no domain in `{String.ofList raw}`"

def mostClauses : Nat :=
  9

/-- Why a value built of well formed parts breaks a rule of the language. -/
inductive RuleFault where
  | notWrapsNot
  | noPlaceForOperand (rule : Text)
  | notStandsAlone
  | emptyAnd
  | firstNegated
  | emptyOr
  | notInOr
  | unknownRights (bits : Nat)
  | tooManyClauses (found : Nat)
  | noStatements
  | emptyLabel
  | openLabel (label : Text)
deriving DecidableEq, Repr

def RuleFault.message : RuleFault → String
  | notWrapsNot => "NOT cannot wrap another NOT"
  | noPlaceForOperand rule => s!"cannot add an operand to `{String.ofList rule}`"
  | notStandsAlone => "NOT must follow AND, it cannot stand alone"
  | emptyAnd => "AND has no operands"
  | firstNegated => "the first operand of AND cannot be negated"
  | emptyOr => "OR has no operands"
  | notInOr => "NOT can only be combined with AND"
  | unknownRights bits =>
      s!"rights bits 0b{String.ofList (Nat.toDigits 2 bits)} name no known privilege"
  | tooManyClauses found =>
      s!"a target rule holds at most {mostClauses} clauses, found {found}"
  | noStatements => "at least one permission and bind rule is required"
  | emptyLabel => "acl label is empty"
  | openLabel label => s!"acl label `{String.ofList label}` holds an unescaped quote"

inductive Error where
  | scan (fault : ScanFault)
  | grammar (fault : GrammarFault)
  | unknownKeyword (name : Text)
  | operatorNotPermitted (keyword : Keyword) (op : Operator)
  | invalidValue (subject : Subject) (fault : ValueFault)
  | unknownRight (name : Text)
  | rule (fault : RuleFault)
  | several (errors : List Error)
deriving Repr

namespace Error

mutual

def message : Error → String
  | scan fault => s!"Lexical error when scanning `{fault.message}`"
  | grammar fault => s!"Parser Error when parsing `{fault.message}`"
  | unknownKeyword name => s!"Unknown keyword `{String.ofList name}`"
  | operatorNotPermitted keyword op =>
      s!"Operator `{String.ofList op.symbol}` is not permitted for keyword " ++
        s!"`{String.ofList keyword.name}`"
  | invalidValue subject fault => invalidValueMessage subject fault.reason
  | unknownRight name => s!"Unknown right `{String.ofList name}`"
  | rule fault => s!"Validation failed: {fault.message}"
  | several errors => "; ".intercalate (messages errors)

def messages : List Error → List String
  | [] => []
  | e :: es => message e :: messages es

end

/-- Holds for the errors raised while text is read, as opposed to those found in a value. -/
def isTextual : Error → Bool
  | scan _ => true
  | grammar _ => true
  | _ => false

/-- The verdict on a list of findings: one is reported as it is, several together. -/
def verdict : List Error → Except Error Unit
  | [] => .ok ()
  | [e] => .error e
  | es => .error (several es)

/-- The findings behind a verdict: none, or the one that it reports. -/
def findings : Except Error Unit → List Error
  | .ok _ => []
  | .error e => [e]

end Error

def Operator.parse (t : Text) : Except Error Operator :=
  match Operator.ofSymbol? t with
  | some op => .ok op
  | none => .error (.grammar (.unknownOperator t))

def BindKeyword.parse (t : Text) : Except Error BindKeyword :=
  match BindKeyword.ofName? t with
  | some k => .ok k
  | none => .error (.unknownKeyword (Text.trim t))

def TargetKeyword.parse (t : Text) : Except Error TargetKeyword :=
  match TargetKeyword.ofName? t with
  | some k => .ok k
  | none => .error (.unknownKeyword (Text.trim t))

end DirectoryAccess
