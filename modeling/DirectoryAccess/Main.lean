import DirectoryAccess.Invocation.Run

/-!
# The command line tool

Gathers what surrounds the tool, runs the invocation and writes its report.
-/

namespace DirectoryAccess

namespace Tool

def decode (bytes : ByteArray) : Except ReadFault Text :=
  match String.fromUTF8? bytes with
  | some s => .ok s.toList
  | none => .error .notText

def readFile (path : Text) : IO (Except ReadFault Text) := do
  try
    return decode (← IO.FS.readBinFile (String.ofList path))
  catch
    | .noFileOrDirectory _ _ _ => return .error .missing
    | fault => return .error (.other (toString fault).toList)

def readInput : IO (Except ReadFault Text) := do
  return decode (← (← IO.getStdin).readBinToEnd)

def readVariables : IO (List (Text × Text)) := do
  let names := ["ACI_MAX_NESTING_DEPTH", "ACI_LOG_LEVEL", "ACI_OUTPUT"]
  names.filterMapM fun name => do
    return (← IO.getEnv name).map fun value => (name.toList, value.toList)

def gather (i : Invocation) : IO Surroundings := do
  let paths := i.rules.toList ++ i.config.toList
  let files ← paths.mapM fun path => return (path, ← readFile path)
  let input ← if i.rules.isSome then pure (.ok []) else readInput
  return {
    environment := ← readVariables
    file := fun path => (files.lookup path).getD (.error .missing)
    input
    coloured := ← (← IO.getStdout).isTty }

/-- Writes the output of a report to a file, or to the standard output if no path is given. -/
def writeOutput (path : Option Text) (t : Text) : IO Unit :=
  match path with
  | some p => IO.FS.writeFile (String.ofList p) (String.ofList t)
  | none => IO.print (String.ofList t)

/-- Says why an invocation fails and gives the code to end with. -/
def refuse (message : String) : IO UInt32 := do
  IO.eprintln s!"Error occurred {message}"
  return UInt32.ofNat Report.malformedCode

def perform (i : Invocation) : IO UInt32 := do
  let surroundings ← gather i
  let shown := (surroundings.settings i.config).bind fun s => s.verbosity i.verbose
  match shown, i.run surroundings with
  | .error f, _ => refuse f.message
  | _, .error f => refuse f.message
  | .ok level, .ok report => do
      for e in report.entries do
        if level.shows e.weight then IO.eprintln e.line
      IO.eprint (String.ofList report.complaintText)
      writeOutput i.output report.output
      return UInt32.ofNat report.code

def usage : String :=
  "Usage: aci <parse-tree|validate|format> [-r FILE] [-c FILE] [-v] [OPTIONS]"

/-- Answers a command line that names no command to run. -/
def answer (fault : UsageFault) : IO UInt32 := do
  match fault with
  | .help => IO.println usage; return 0
  | .version => IO.println "aci 1.0.0"; return 0
  | _ => IO.eprintln usage; return 2

end Tool

end DirectoryAccess

open DirectoryAccess in
def main (args : List String) : IO UInt32 :=
  match Invocation.read (args.map String.toList) with
  | .ok i => Tool.perform i
  | .error fault => Tool.answer fault
