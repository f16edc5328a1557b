import DirectoryAccess.BindRule.Parser
import DirectoryAccess.Failure

/-!
# Settings

How deep parentheses may nest, how much of the journal is shown, and in which
format trees are written.
-/

namespace DirectoryAccess

inductive LogLevel where
  | off
  | error
  | warn
  | info
  | debug
  | trace
deriving DecidableEq, Repr, Inhabited

namespace LogLevel

def all : List LogLevel :=
  [off, error, warn, info, debug, trace]

def name : LogLevel → Text
  | off => "OFF".toList
  | error => "ERROR".toList
  | warn => "WARN".toList
  | info => "INFO".toList
  | debug => "DEBUG".toList
  | trace => "TRACE".toList

def ofName? (t : Text) : Option LogLevel :=
  all.find? fun l => Text.sameFold l.name t

/-- The next level, which shows more. -/
def next : LogLevel → LogLevel
  | off => error
  | error => warn
  | warn => info
  | info => debug
  | debug => trace
  | trace => trace

def raise : Nat → LogLevel → LogLevel
  | 0, l => l
  | steps + 1, l => raise steps l.next

def shows (l : LogLevel) (w : Weight) : Bool :=
  match l, w with
  | info, .info => true
  | debug, .info => true
  | debug, .debug => true
  | trace, _ => true
  | _, _ => false

end LogLevel

inductive OutputFormat where
  | yaml
  | json
deriving DecidableEq, Repr, Inhabited

namespace OutputFormat

def name : OutputFormat → Text
  | yaml => "yaml".toList
  | json => "json".toList

def ofName? (t : Text) : Option OutputFormat :=
  [yaml, json].find? fun f => f.name == t

end OutputFormat

/-- The settings of an invocation.  The level keeps the spelling that it was given in. -/
structure Settings where
  maxNestingDepth : Nat
  logLevel : Text
  output : OutputFormat
deriving DecidableEq, Repr

namespace Settings

/-- The settings that hold where nothing else is said. -/
def initial : Settings :=
  ⟨defaultDepth, "warn".toList, .yaml⟩

instance : Inhabited Settings :=
  ⟨initial⟩

def level (s : Settings) : Except Failure LogLevel :=
  match LogLevel.ofName? s.logLevel with
  | some l => .ok l
  | none => .error (.unknownLevel s.logLevel)

/-- The level after so many requests for more detail. -/
def verbosity (s : Settings) (requests : Nat) : Except Failure LogLevel :=
  s.level.map (LogLevel.raise requests)

end Settings

end DirectoryAccess
