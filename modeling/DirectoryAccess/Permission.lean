import DirectoryAccess.BitSet
import DirectoryAccess.Error
import DirectoryAccess.Text.Split

/-!
# Permissions

A permission allows or denies a set of rights.  The name `all` stands for every
right but `proxy`, and `none` for no right.
-/

namespace DirectoryAccess

inductive Disposition where
  | allow
  | deny
deriving DecidableEq, Repr, Inhabited

namespace Disposition

def name : Disposition → Text
  | allow => "allow".toList
  | deny => "deny".toList

/-- The disposition spelled by a text in lower case. -/
def ofName? (t : Text) : Option Disposition :=
  [allow, deny].find? fun d => d.name == t

end Disposition

inductive Right where
  | read
  | write
  | add
  | delete
  | search
  | compare
  | selfWrite
  | proxy
  | importEntry
  | exportEntry
deriving DecidableEq, Repr, Inhabited

namespace Right

def all : List Right :=
  [read, write, add, delete, search, compare, selfWrite, proxy, importEntry, exportEntry]

def position : Right → Nat
  | read => 0
  | write => 1
  | add => 2
  | delete => 3
  | search => 4
  | compare => 5
  | selfWrite => 6
  | proxy => 7
  | importEntry => 8
  | exportEntry => 9

def name : Right → Text
  | read => "read".toList
  | write => "write".toList
  | add => "add".toList
  | delete => "delete".toList
  | search => "search".toList
  | compare => "compare".toList
  | selfWrite => "selfwrite".toList
  | proxy => "proxy".toList
  | importEntry => "import".toList
  | exportEntry => "export".toList

def ofName? (t : Text) : Option Right :=
  all.find? fun r => r.name == t

end Right

/-- A set of rights; the word may hold bits that are the position of no right. -/
structure Rights where
  set : BitSet 16
deriving DecidableEq, Repr, Inhabited

namespace Rights

def none : Rights :=
  ⟨.empty⟩

def insert (s : Rights) (r : Right) : Rights :=
  ⟨s.set.insert r.position⟩

def erase (s : Rights) (r : Right) : Rights :=
  ⟨s.set.erase r.position⟩

def contains (s : Rights) (r : Right) : Bool :=
  s.set.contains r.position

def union (s t : Rights) : Rights :=
  ⟨s.set.union t.set⟩

def ofList (rs : List Right) : Rights :=
  rs.foldl insert none

def full : Rights :=
  ofList Right.all

/-- Every right but the one to act for another. -/
def all : Rights :=
  full.erase .proxy

def bits (s : Rights) : Nat :=
  s.set.toNat

def rights (s : Rights) : List Right :=
  Right.all.filter s.contains

/-- The number of positions that are set. -/
def size (s : Rights) : Nat :=
  s.set.size

def isEmpty (s : Rights) : Bool :=
  s.set.isEmpty

/-- Holds if no position is set that is the position of no right. -/
def isKnown (s : Rights) : Bool :=
  s.set.bits &&& ~~~full.set.bits == BitVec.ofNat 16 0

def ofName? (t : Text) : Option Rights :=
  if t == "all".toList then some all
  else if t == "none".toList then some none
  else (Right.ofName? t).map fun r => ofList [r]

/-- The rights of a piece of text, whatever its case. -/
def readPiece (piece : Text) : Except Error Rights :=
  match ofName? (Text.lower piece) with
  | some s => .ok s
  | Option.none => .error (.unknownRight piece)

def parse (t : Text) : Except Error Rights := do
  let sets ← ((Text.splitOn ',' t).map Text.trim).mapM readPiece
  return sets.foldl union none

/-- Writes the names of the rights; a few sets have a name of their own. -/
def text (s : Rights) : Text :=
  if s = none then "none".toList
  else if s = all then "all".toList
  else if s = full then "all,proxy".toList
  else Text.join [','] (s.rights.map Right.name)

end Rights

structure Permission where
  disposition : Disposition
  rights : Rights
deriving DecidableEq, Repr, Inhabited

namespace Permission

/-- The length in bytes of the shortest permission. -/
def shortest : Nat :=
  9

/-- Reads `allow(rights)` or `deny(rights)`. -/
def parse (t : Text) : Except Error Permission :=
  let text := Text.trim t
  match Text.stripLast? ')' text with
  | none => .error (.grammar (.notPermission text))
  | some inner =>
      if Text.byteLength text < shortest then .error (.grammar (.notPermission text))
      else
        match Text.cut? '(' inner with
        | none => .error (.grammar (.noRightsParen text))
        | some (front, names) =>
            let name := Text.lower (Text.trim front)
            match Disposition.ofName? name with
            | none => .error (.grammar (.unknownDisposition name text))
            | some disposition => (Rights.parse names).map fun rights => ⟨disposition, rights⟩

def text (p : Permission) : Text :=
  p.disposition.name ++ '(' :: p.rights.text ++ [')']

/-- The verdict on a permission: every bit has to be the position of a right. -/
def check (p : Permission) : Except Error Unit :=
  if p.rights.isKnown then .ok () else .error (.rule (.unknownRights p.rights.bits))

end Permission

end DirectoryAccess
