import DirectoryAccess.Text.Basic

/-!
# Trees

The plain data that values are exchanged as: nothing, truth values, numbers,
texts, lists and records.  A choice among named forms is written as its name, or
as a record with the name as its only field; a record of known fields may also
come as the list of their contents.
-/

namespace DirectoryAccess

/-- Plain data.  A number is its mantissa divided by ten to the power of its scale. -/
inductive Tree where
  | null
  | bool (b : Bool)
  | number (mantissa : Int) (scale : Nat)
  | text (t : Text)
  | list (items : List Tree)
  | record (fields : List (Text × Tree))
deriving Repr, Inhabited

namespace Tree

def ofNat (n : Nat) : Tree :=
  number n 0

def ofTexts (ts : List Text) : Tree :=
  list (ts.map text)

def ofOption {α : Type} (encode : α → Tree) : Option α → Tree
  | none => null
  | some a => encode a

def form (name : Text) (content : Tree) : Tree :=
  record [(name, content)]

/-- The number of a tree, if it is a whole number up to `bound`. -/
def nat? (bound : Nat) : Tree → Option Nat
  | number (.ofNat n) 0 => if n ≤ bound then some n else none
  | _ => none

def bool? : Tree → Option Bool
  | bool b => some b
  | _ => none

def text? : Tree → Option Text
  | text t => some t
  | _ => none

def list? {α : Type} (decode : Tree → Option α) : Tree → Option (List α)
  | list items => items.mapM decode
  | _ => none

/-- What may be missing: nothing stands for `none`. -/
def option? {α : Type} (decode : Tree → Option α) : Tree → Option (Option α)
  | null => some none
  | t => (decode t).map some

/-- The contents of the named fields of a record, in the order of the names. -/
def fields? (names : List Text) : Tree → Option (List (Option Tree))
  | record fields => some (names.map fun name => fields.lookup name)
  | list items => if items.length = names.length then some (items.map some) else none
  | _ => none

def required? {α : Type} (decode : Tree → Option α) : Option Tree → Option α
  | none => none
  | some t => decode t

def optional? {α : Type} (decode : Tree → Option α) : Option Tree → Option (Option α)
  | none => some none
  | some t => option? decode t

/-- The name of a form without content. -/
def name? : Tree → Option Text
  | text name => some name
  | record [(name, null)] => some name
  | _ => none

def form? : Tree → Option (Text × Tree)
  | record [(name, content)] => some (name, content)
  | _ => none

/-- The member of an enumeration with this name. -/
def member? {α : Type} (all : List α) (nameOf : α → Text) (t : Tree) : Option α :=
  (name? t).bind fun name => all.find? fun a => nameOf a == name

end Tree

end DirectoryAccess
