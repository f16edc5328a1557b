import DirectoryAccess.Text.Basic

/-!
# Failures of an invocation

Why the tool does not get as far as the instructions of a listing.  What is
wrong with the instructions themselves is an `Error`, and is reported.
-/

namespace DirectoryAccess

/-- Why a command line is refused, or what it asks for instead of a command. -/
inductive UsageFault where
  | unknownCommand
  | unknownArgument
  | missingValue
  | needlessValue
  | conflict
  | help
  | helpForNothing
  | version
deriving DecidableEq, Repr

inductive ReadFault where
  | missing
  | notText
  | other (reason : Text)
deriving DecidableEq, Repr

def ReadFault.message : ReadFault → String
  | missing => "No such file or directory (os error 2)"
  | notText => "stream did not contain valid UTF-8"
  | other reason => String.ofList reason

inductive Failure where
  | usage (fault : UsageFault)
  | unreadable (fault : ReadFault)
  | noConfiguration (path : Text)
  | badConfiguration
  | unknownLevel (name : Text)
deriving DecidableEq, Repr

def Failure.message : Failure → String
  | usage _ => "the command line was refused"
  | unreadable fault => s!"I/O error when reading {fault.message}"
  | noConfiguration path => s!"configuration file {String.ofList path} does not exist"
  | badConfiguration => "the configuration cannot be used"
  | unknownLevel name => s!"unknown log level `{String.ofList name}`"

end DirectoryAccess
