import DirectoryAccess.Settings.Basic
import DirectoryAccess.Toml.Document

/-!
# Where settings come from

A setting is taken from the environment, else from the configuration file, else
it keeps its initial value.  Keys of the file that name no setting are ignored,
but the file has to be a TOML document as a whole.
-/

namespace DirectoryAccess

/-- What a source gives for a setting. -/
inductive Setting where
  | text (t : Text)
  | integer (n : Int)
  | real (x : Double)
  | truth (b : Bool)
  | compound
deriving DecidableEq, Repr, Inhabited

namespace Setting

def ofItem : Toml.Item → Setting
  | .text t => text t
  | .integer n => integer n
  | .real x => real x
  | .truth b => truth b
  | .moment t => text t
  | .array _ _ => compound
  | .table _ _ => compound

/-- What the text of a variable gives: the truth value or the number that it looks like,
else itself. -/
def ofVariable (t : Text) : Setting :=
  if Text.sameFold t "true".toList then truth true
  else if Text.sameFold t "false".toList then truth false
  else
    match Text.int64 t with
    | .value n => integer n
    | _ =>
        match Double.read? t with
        | some x => real x
        | none => text t

/-- A natural number of 64 bits: as such, as its digits, or as a truth value. -/
def nat? : Setting → Option Nat
  | integer (.ofNat n) => some n
  | text t => (Text.unsigned? t).filter (· < Nat.pow 2 64)
  | truth b => some b.toNat
  | _ => none

/-- A text: as such, or the text of a number or a truth value. -/
def text? : Setting → Option Text
  | text t => some t
  | integer n => some (Text.ofInt n)
  | real x => some x.text
  | truth b => some (if b then "true".toList else "false".toList)
  | compound => none

def format? : Setting → Option OutputFormat
  | text t => OutputFormat.ofName? t
  | _ => none

end Setting

namespace Settings

/-- What stands in front of the name of a setting in the name of its variable. -/
def variableLead : Text :=
  "ACI_".toList

/-- The setting of a name, from the variables or else from the file. -/
def find? (environment : List (Text × Text)) (file : Toml.Fields) (name : Text) : Option Setting :=
  match environment.find? fun v => Text.sameFold v.1 (variableLead ++ name) with
  | some v => some (.ofVariable v.2)
  | none => (file.lookup name).map Setting.ofItem

/-- The value of a setting that may be left out. -/
def orInitial {α : Type} (initial : α) (decode : Setting → Option α) (found : Option Setting) :
    Except Failure α :=
  match found with
  | none => .ok initial
  | some s =>
      match decode s with
      | some a => .ok a
      | none => .error .badConfiguration

def ofSources (environment : List (Text × Text)) (file : Toml.Fields) :
    Except Failure Settings := do
  let depth ← orInitial initial.maxNestingDepth Setting.nat?
    (find? environment file "max_nesting_depth".toList)
  let level ← orInitial initial.logLevel Setting.text? (find? environment file "log_level".toList)
  let output ← orInitial initial.output Setting.format? (find? environment file "output".toList)
  return ⟨depth, level, output⟩

/--
Loads the settings from variables and the content of a configuration file, if
there is one.  The level has to be one that there is.
-/
def load (environment : List (Text × Text)) (config : Option Text) : Except Failure Settings := do
  let file ←
    match config with
    | none => .ok []
    | some content =>
        match Toml.read? content with
        | some fields => .ok fields
        | none => .error .badConfiguration
  let settings ← ofSources environment file
  let _ ← settings.level
  return settings

end Settings

end DirectoryAccess
