import DirectoryAccess.Decimal.Double

/-!
# Items of a TOML document

What a key can stand for, and how a document grows: a key is given once, a table
is opened once, and a table that was written in one way is not extended in
another.
-/

namespace DirectoryAccess

namespace Toml

/-- How a table came to be, which decides who may extend it. -/
inductive Origin where
  /-- Named in front of a point in the header of another table. -/
  | implied
  /-- Opened by a header. -/
  | header
  /-- Named in front of a point in a key. -/
  | dotted
  /-- Written between braces. -/
  | inline
deriving DecidableEq, Repr

/-- What a key stands for.  An array that `grows` gains a table by each of its headers. -/
inductive Item where
  | text (t : Text)
  | integer (n : Int)
  | real (x : Double)
  | truth (b : Bool)
  | moment (t : Text)
  | array (grows : Bool) (items : List Item)
  | table (origin : Origin) (fields : List (Text × Item))
deriving Repr, Inhabited

/-- The keys of a table with their items, in the order in which they came. -/
abbrev Fields := List (Text × Item)

namespace Fields

/-- Gives a key another item, or a key that is not there its first one. -/
def put (name : Text) (item : Item) : Fields → Fields
  | [] => [(name, item)]
  | (n, i) :: rest => if n = name then (n, item) :: rest else (n, i) :: put name item rest

/--
Works on the table at the end of a path of headers.  A table that is missing on
the way is implied; an array that grows stands for its last table.
-/
def within (f : Fields → Option Fields) : List Text → Fields → Option Fields
  | [], fields => f fields
  | name :: path, fields =>
      match fields.lookup name with
      | none => do
          let inner ← within f path []
          return fields.put name (.table .implied inner)
      | some (.table origin inner) =>
          if origin = .inline then none
          else do
            let inner ← within f path inner
            return fields.put name (.table origin inner)
      | some (.array true items) =>
          match items.getLast? with
          | some (.table origin inner) => do
              let inner ← within f path inner
              return fields.put name (.array true (items.dropLast ++ [.table origin inner]))
          | _ => none
      | some _ => none

/-- Opens a table that is new or was only implied. -/
def openTable (name : Text) (fields : Fields) : Option Fields :=
  match fields.lookup name with
  | none => some (fields.put name (.table .header []))
  | some (.table .implied inner) => some (fields.put name (.table .header inner))
  | some _ => none

/-- Opens the next table of an array that is new or grows. -/
def openElement (name : Text) (fields : Fields) : Option Fields :=
  match fields.lookup name with
  | none => some (fields.put name (.array true [.table .header []]))
  | some (.array true items) =>
      some (fields.put name (.array true (items ++ [.table .header []])))
  | some _ => none

/--
Gives a key that is new its item, in the table at the end of the path in front
of the key.  That table is new or was written with points in a key.
-/
def assign (name : Text) (item : Item) : List Text → Fields → Option Fields
  | [], fields => if (fields.lookup name).isSome then none else some (fields.put name item)
  | step :: path, fields =>
      match fields.lookup step with
      | none => do
          let inner ← assign name item path []
          return fields.put step (.table .dotted inner)
      | some (.table origin inner) =>
          if origin = .dotted ∨ (origin = .implied ∧ path ≠ []) then do
            let inner ← assign name item path inner
            return fields.put step (.table origin inner)
          else none
      | some _ => none

def assignPath (path : List Text) (item : Item) (fields : Fields) : Option Fields :=
  match path.getLast? with
  | none => none
  | some name => assign name item path.dropLast fields

end Fields

end Toml

end DirectoryAccess
