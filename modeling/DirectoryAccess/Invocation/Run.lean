import DirectoryAccess.Invocation.Basic
import DirectoryAccess.Report
import DirectoryAccess.Settings.Source

/-!
# Running an invocation

The settings are loaded first, then the listing is read, then the command
reports on it.  What surrounds the tool is given as a value, so that the report
is a function of it.
-/

namespace DirectoryAccess

/-- What the tool finds around it: variables, files, the standard input, and whether to
use colours. -/
structure Surroundings where
  environment : List (Text × Text)
  file : Text → Except ReadFault Text
  input : Except ReadFault Text
  coloured : Bool

namespace Surroundings

def settings (s : Surroundings) (config : Option Text) : Except Failure Settings :=
  match config with
  | none => Settings.load s.environment none
  | some path =>
      match s.file path with
      | .ok content => Settings.load s.environment (some content)
      | .error .missing => .error (.noConfiguration path)
      | .error _ => .error .badConfiguration

/-- Reads the listing, from the standard input if no path is given. -/
def listing (s : Surroundings) (rules : Option Text) : Except Failure Text :=
  let found :=
    match rules with
    | none => s.input
    | some path => s.file path
  found.mapError Failure.unreadable

end Surroundings

namespace Command

def report (settings : Settings) (coloured : Bool) (content : Text) : Command → Report
  | .parseTree chosen =>
      .ofTrees settings.maxNestingDepth (chosen.getD settings.output) content
  | .validate showCanonical =>
      .ofVerdicts settings.maxNestingDepth coloured showCanonical content
  | .format => .ofCanonicals settings.maxNestingDepth content

end Command

namespace Invocation

def run (s : Surroundings) (i : Invocation) : Except Failure Report := do
  let settings ← s.settings i.config
  let content ← s.listing i.rules
  return i.command.report settings s.coloured content

def runArguments (s : Surroundings) (args : List Text) : Except Failure Report := do
  let i ← (read args).mapError Failure.usage
  i.run s

end Invocation

end DirectoryAccess
