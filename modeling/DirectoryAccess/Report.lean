import DirectoryAccess.Instruction.Parser
import DirectoryAccess.Listing
import DirectoryAccess.Settings.Basic
import DirectoryAccess.Terminal
import DirectoryAccess.Tree.Rules
import DirectoryAccess.Tree.Yaml

/-!
# Reports

What the tool says about the instructions of a listing: a verdict on each of
them, their trees, or their canonical texts.  A report on trees or canonical
texts is given for all instructions of the listing or for none.
-/

namespace DirectoryAccess

/-- What is written to the output and to the error output, and the code to end with. -/
structure Report where
  code : Nat
  output : Text
  complaints : List Text
  entries : List Entry
deriving DecidableEq, Repr

namespace Report

def successCode : Nat :=
  0

/-- The code of a report on a text that is no instruction. -/
def malformedCode : Nat :=
  5

/-- The code of a report on an instruction that is not in order. -/
def failedCode : Nat :=
  19

def complaintText (r : Report) : Text :=
  r.complaints.flatMap fun c => c ++ ['\n']

end Report

/-- A logical line of a listing together with what reading it gave. -/
structure LineReading where
  line : LogicalLine
  parsed : Journaled Error Instruction

namespace LineReading

def ofListing (limit : Nat) (content : Text) : List LineReading :=
  (Listing.logicalLines content).map fun l => ⟨l, Instruction.journaledParse limit l.text⟩

def instruction? (r : LineReading) : Option Instruction :=
  r.parsed.result.toOption

/-- Holds for a line that is no instruction. -/
def isMalformed (r : LineReading) : Bool :=
  r.instruction?.isNone

/-- Holds for an instruction that is not in order. -/
def isFailed (r : LineReading) : Bool :=
  r.instruction?.any fun i => i.check.toOption.isNone

def complaint? (r : LineReading) : Option Text :=
  match r.parsed.result with
  | .ok _ => none
  | .error e =>
      some <| "Parsing error handling instruction at line ".toList ++ Text.ofNat r.line.number ++
        ", Error = ".toList ++ e.message.toList

def entries (rs : List LineReading) : List Entry :=
  rs.flatMap fun r => r.parsed.entries

/-- The lines up to the first that is no instruction, that one included. -/
def throughFirstMalformed : List LineReading → List LineReading
  | [] => []
  | r :: rs => if r.isMalformed then [r] else r :: throughFirstMalformed rs

end LineReading

namespace Report

def pass (coloured : Bool) : Text :=
  Terminal.paint coloured .green "PASS".toList

def fail (coloured : Bool) : Text :=
  Terminal.paint coloured .red "FAIL".toList

/-- A line that belongs to the one above it. -/
def detail (t : Text) : Text :=
  "    ".toList ++ t ++ ['\n']

def labelled (number label verdict : Text) : Text :=
  number ++ ": acl ".toList ++ Text.quote label ++ ' ' :: verdict ++ ['\n']

def verdict (coloured showCanonical : Bool) (r : LineReading) : Text :=
  let number := Text.ofNat r.line.number
  match r.parsed.result with
  | .error e => number ++ ": ".toList ++ fail coloured ++ '\n' :: detail e.message.toList
  | .ok i =>
      match i.check with
      | .error e => labelled number i.label (fail coloured) ++ detail e.message.toList
      | .ok () =>
          labelled number i.label (pass coloured) ++ if showCanonical then detail i.text else []

def countEntry (malformed failed : Nat) : Entry :=
  ⟨.info, Text.ofNat malformed ++ " instructions failed to parse, ".toList ++
    Text.ofNat failed ++ " failed validation".toList⟩

def ofVerdicts (limit : Nat) (coloured showCanonical : Bool) (content : Text) : Report :=
  let readings := LineReading.ofListing limit content
  let malformed := readings.countP LineReading.isMalformed
  let failed := readings.countP LineReading.isFailed
  let code :=
    if 0 < malformed then malformedCode
    else if 0 < failed then failedCode
    else successCode
  ⟨code, readings.flatMap (verdict coloured showCanonical), [],
    LineReading.entries readings ++ [countEntry malformed failed]⟩

def render : OutputFormat → Tree → Text
  | .json, t => t.json
  | .yaml, t => t.yaml

def parsedEntry (count : Nat) : Entry :=
  ⟨.debug, "parsed ".toList ++ Text.ofNat count ++ " instructions".toList⟩

/-- Reports the trees of all instructions of a listing, or every line that is none. -/
def ofTrees (limit : Nat) (format : OutputFormat) (content : Text) : Report :=
  let readings := LineReading.ofListing limit content
  let complaints := readings.filterMap LineReading.complaint?
  if complaints.isEmpty then
    let instructions := readings.filterMap LineReading.instruction?
    ⟨successCode, render format (.list (instructions.map Instruction.tree)), [],
      LineReading.entries readings ++ [parsedEntry instructions.length]⟩
  else ⟨malformedCode, [], complaints, LineReading.entries readings⟩

/-- Reports the canonical texts of all instructions of a listing, or the first line that is none. -/
def ofCanonicals (limit : Nat) (content : Text) : Report :=
  let readings := LineReading.throughFirstMalformed (LineReading.ofListing limit content)
  let complaints := readings.filterMap LineReading.complaint?
  if complaints.isEmpty then
    let instructions := readings.filterMap LineReading.instruction?
    ⟨successCode, instructions.flatMap fun i => i.text ++ ['\n'], [], LineReading.entries readings⟩
  else ⟨malformedCode, [], complaints, LineReading.entries readings⟩

end Report

end DirectoryAccess
