import DirectoryAccess.Distinct
import DirectoryAccess.Error
import DirectoryAccess.Text.Split

/-!
# Network locations

The values of the keywords that say where a request comes from: patterns of
addresses and names of domains, separated by commas.
-/

namespace DirectoryAccess

structure AddressList where
  addresses : List Text
deriving DecidableEq, Repr, Inhabited

namespace AddressList

def empty : AddressList :=
  ⟨[]⟩

/-- Appends an address unless it is there in either case. -/
def push (l : AddressList) (address : Text) : AddressList :=
  ⟨Distinct.push Text.sameFold l.addresses address⟩

/-- The characters that both kinds of pattern may hold besides digits. -/
def isMark (c : Char) : Bool :=
  c == '.' || c == '*' || c == '/'

def isHexDigit (c : Char) : Bool :=
  c.isDigit || ('a' ≤ c && c ≤ 'f') || ('A' ≤ c && c ≤ 'F')

/-- A pattern of addresses of the fourth version: digits and marks, at least one digit or star. -/
def isShortPattern (t : Text) : Bool :=
  t.all (fun c => c.isDigit || isMark c) && t.any fun c => c.isDigit || c == '*'

/-- A pattern of addresses of the sixth version: hexadecimal digits, marks and a colon. -/
def isLongPattern (t : Text) : Bool :=
  t.contains ':' && t.all fun c => isHexDigit c || c == ':' || isMark c

def isPattern (t : Text) : Bool :=
  isShortPattern t || isLongPattern t

def read (raw : Text) : Except ValueFault AddressList :=
  let patterns := Text.commaEntries raw
  match patterns.find? fun p => !isPattern p with
  | some p => .error (.badAddress p)
  | none => if patterns.isEmpty then .error (.noAddress raw) else .ok (patterns.foldl push empty)

def parse (raw : Text) : Except Error AddressList :=
  (read raw).mapError (.invalidValue (.keyword (.bind .ip)))

def text (l : AddressList) : Text :=
  Text.join [','] l.addresses

end AddressList

/-- Fully qualified names of domains, whose labels may be wildcards. -/
structure DomainList where
  names : List Text
deriving DecidableEq, Repr, Inhabited

namespace DomainList

def empty : DomainList :=
  ⟨[]⟩

def push (l : DomainList) (name : Text) : DomainList :=
  ⟨Distinct.push Text.sameFold l.names name⟩

/-- A label: a star, or up to 63 letters, digits and hyphens with no hyphen at either end. -/
def isLabel (t : Text) : Bool :=
  t == ['*'] ||
    (t.length ≤ 63 && t.all (fun c => c.isAlphanum || c == '-') &&
      (t.head?.map Char.isAlphanum).getD false && (t.getLast?.map Char.isAlphanum).getD false)

def nameFault? (name : Text) : Option ValueFault :=
  if longestDomain < Text.byteLength name then some (.longDomain name)
  else
    let labels := Text.splitOn '.' name
    if labels.length < 2 then some (.tooFewLabels name)
    else (labels.find? fun label => !isLabel label).map fun label => .badLabel label name

def read (raw : Text) : Except ValueFault DomainList :=
  let names := Text.commaEntries raw
  match names.findSome? nameFault? with
  | some fault => .error fault
  | none => if names.isEmpty then .error (.noDomain raw) else .ok (names.foldl push empty)

def parse (raw : Text) : Except Error DomainList :=
  (read raw).mapError (.invalidValue (.keyword (.bind .dns)))

def text (l : DomainList) : Text :=
  Text.join [','] l.names

end DomainList

end DirectoryAccess
