import DirectoryAccess.Settings.Basic

/-!
# Command lines

A command line names a command and then options.  An option has a long name
behind two hyphens and a letter behind one; letters without a value may be
joined.  A value stands behind an equality sign, right behind the letter, or in
the next argument.  An option is given once, but more detail may be asked for
again and again.
-/

namespace DirectoryAccess

inductive CommandName where
  | parseTree
  | validate
  | format
deriving DecidableEq, Repr

namespace CommandName

def all : List CommandName :=
  [parseTree, validate, format]

def word : CommandName → Text
  | parseTree => "parse-tree".toList
  | validate => "validate".toList
  | format => "format".toList

def ofWord? (t : Text) : Option CommandName :=
  all.find? fun c => c.word == t

end CommandName

/-- The options of commands. -/
inductive Switch where
  | rules
  | config
  | verbose
  | output
  | printJson
  | printYaml
  | showCanonical
  | help
deriving DecidableEq, Repr

namespace Switch

def long : Switch → Text
  | rules => "rules".toList
  | config => "config".toList
  | verbose => "verbose".toList
  | output => "output".toList
  | printJson => "print-json".toList
  | printYaml => "print-yaml".toList
  | showCanonical => "show-canonical".toList
  | help => "help".toList

def letter : Switch → Char
  | rules => 'r'
  | config => 'c'
  | verbose => 'v'
  | output => 'o'
  | printJson => 'p'
  | printYaml => 'y'
  | showCanonical => 's'
  | help => 'h'

def takesValue : Switch → Bool
  | rules => true
  | config => true
  | output => true
  | _ => false

def ofCommand : CommandName → List Switch
  | .parseTree => [rules, config, verbose, output, printJson, printYaml, help]
  | .validate => [rules, config, verbose, showCanonical, help]
  | .format => [rules, config, verbose, output, help]

end Switch

inductive Command where
  | parseTree (format : Option OutputFormat)
  | validate (showCanonical : Bool)
  | format
deriving DecidableEq, Repr

/-- A command with the files that it works on and the requests for more detail. -/
structure Invocation where
  command : Command
  rules : Option Text
  config : Option Text
  output : Option Text
  verbose : Nat
deriving DecidableEq, Repr

/-- The options read so far, and the last one with its value as long as it may lack one. -/
structure Given where
  settled : List (Switch × Text)
  pending : Option (Switch × Option Text)
deriving DecidableEq, Repr

namespace Given

def nothing : Given :=
  ⟨[], none⟩

/-- Adds an option, which must not be there already. -/
def add (s : Switch) (value : Text) (settled : List (Switch × Text)) :
    Except UsageFault (List (Switch × Text)) :=
  if s = .help then .error .help
  else if s ≠ .verbose ∧ s ∈ settled.map Prod.fst then .error .conflict
  else .ok (settled ++ [(s, value)])

/-- Adds the pending option, which must have its value. -/
def settle (g : Given) : Except UsageFault (List (Switch × Text)) :=
  match g.pending with
  | none => .ok g.settled
  | some (_, none) => .error .missingValue
  | some (s, some value) => add s value g.settled

def record (s : Switch) (value : Text) (g : Given) : Except UsageFault Given := do
  let settled ← add s value (← g.settle)
  return ⟨settled, none⟩

def await (s : Switch) (g : Given) : Except UsageFault Given := do
  return ⟨← g.settle, some (s, none)⟩

def has (s : Switch) (settled : List (Switch × Text)) : Bool :=
  settled.any fun o => o.1 == s

/-- Reads the letters of an argument. -/
def letters (known : List Switch) (g : Given) : Text → Except UsageFault Given
  | [] => .ok g
  | c :: cs =>
      match known.find? fun s => s.letter == c with
      | none => .error .unknownArgument
      | some s =>
          if s.takesValue then
            match cs with
            | [] => g.await s
            | '=' :: value => g.record s value
            | value => g.record s value
          else do
            let g ← g.record s []
            letters known g cs

/-- The name and the value of an argument behind two hyphens. -/
def cutValue (t : Text) : Text × Option Text :=
  match Text.cut? '=' t with
  | some (name, value) => (name, some value)
  | none => (t, none)

/-- Reads an argument behind two hyphens. -/
def longName (known : List Switch) (g : Given) (t : Text) : Except UsageFault Given :=
  let (name, value) := cutValue t
  match known.find? fun s => s.long == name with
  | none => .error .unknownArgument
  | some s =>
      match s.takesValue, value with
      | true, none => g.await s
      | true, some v => g.record s v
      | false, none => g.record s []
      | false, some _ => .error .needlessValue

/-- Reads an argument that is neither: it is the value that an option waits for. -/
def plain (g : Given) (t : Text) : Except UsageFault Given :=
  match g.pending with
  | some (s, none) => .ok { g with pending := some (s, some t) }
  | _ => .error .unknownArgument

/-- Reads the arguments of a command.  None may follow two lone hyphens. -/
def read (known : List Switch) (g : Given) : List Text → Except UsageFault (List (Switch × Text))
  | [] => g.settle
  | ['-', '-'] :: rest => if rest.isEmpty then g.settle else .error .unknownArgument
  | ('-' :: '-' :: name) :: rest => do
      let g ← g.longName known name
      read known g rest
  | ('-' :: c :: cs) :: rest => do
      let g ← g.letters known (c :: cs)
      read known g rest
  | value :: rest => do
      let g ← g.plain value
      read known g rest

end Given

namespace Invocation

/-- The command with the options that concern it alone. -/
def commandOf (settled : List (Switch × Text)) : CommandName → Command
  | .parseTree =>
      .parseTree <|
        if Given.has .printJson settled then some .json
        else if Given.has .printYaml settled then some .yaml
        else none
  | .validate => .validate (Given.has .showCanonical settled)
  | .format => .format

/-- Reads the arguments behind the name of a command.  One format may be asked for. -/
def ofOptions (name : CommandName) (args : List Text) : Except UsageFault Invocation := do
  let settled ← Given.nothing.read (Switch.ofCommand name) args
  if Given.has .printJson settled && Given.has .printYaml settled then .error .conflict
  else
    return ⟨commandOf settled name, settled.lookup .rules, settled.lookup .config,
      settled.lookup .output, settled.countP fun o => o.1 == .verbose⟩

def isTopic (t : Text) : Bool :=
  (CommandName.ofWord? t).isSome || t == "help".toList

/-- The answer to a request for help on topics, of which there is at most one. -/
def helpOn : List Text → UsageFault
  | [] => .help
  | [topic] => if isTopic topic then .help else .unknownCommand
  | _ => .unknownCommand

/-- Why an argument in front of the command is no command. -/
def faultOfFirst : Text → List Text → UsageFault
  | ['-', '-'], [] => .helpForNothing
  | ['-', '-'], next :: _ => if isTopic next then .unknownArgument else .unknownCommand
  | '-' :: '-' :: name, _ =>
      let (name, value) := Given.cutValue name
      if name == "help".toList || name == "version".toList then
        if value.isSome then .needlessValue
        else if name == "help".toList then .help
        else .version
      else .unknownArgument
  | '-' :: c :: _, _ => if c == 'h' then .help else if c == 'V' then .version else .unknownArgument
  | _, _ => .unknownCommand

def read : List Text → Except UsageFault Invocation
  | [] => .error .helpForNothing
  | first :: rest =>
      match CommandName.ofWord? first with
      | some name => ofOptions name rest
      | none =>
          if first == "help".toList then .error (helpOn rest) else .error (faultOfFirst first rest)

end Invocation

end DirectoryAccess
