import DirectoryAccess.Error
import DirectoryAccess.Journal
import DirectoryAccess.Text.Numeral
import DirectoryAccess.Text.Split

/-!
# Security of a connection

The values of the keywords that ask how a connection is protected: a strength
factor from 0 to 256, and the method by which the requester was authenticated.
-/

namespace DirectoryAccess

/-- A security strength factor. -/
structure Strength where
  value : Fin 257
deriving DecidableEq, Repr, Inhabited

namespace Strength

def greatest : Nat :=
  256

/-- The strength nearest to an integer. -/
def ofInt (n : Int) : Strength :=
  ⟨⟨min n.toNat greatest, by simp only [greatest]; omega⟩⟩

def clampEntry (n : Int) : List Entry :=
  if (greatest : Int) < n then
    [⟨.debug, "ssf ".toList ++ Text.ofInt n ++ " clamped to ".toList ++ Text.ofNat greatest⟩]
  else []

def words : List (Text × Int) :=
  [("full".toList, greatest), ("max".toList, greatest), ("none".toList, 0), ("off".toList, 0)]

/--
The integer that a text asks for: by a word, or by a numeral.  A numeral of more
than 64 bits asks for the end of the range on its side.
-/
def asked? (t : Text) : Option Int :=
  let raw := Text.trim t
  match words.lookup (Text.lower raw) with
  | some n => some n
  | none =>
      match Text.int64 raw with
      | .value n => some n
      | .tooHigh => some greatest
      | .tooLow => some 0
      | .notNumeral => none

def read (t : Text) : Except ValueFault Strength :=
  match asked? t with
  | some n => .ok (ofInt n)
  | none => .error (.notStrength (Text.trim t))

def parse (t : Text) : Except Error Strength :=
  (read t).mapError (.invalidValue (.keyword (.bind .ssf)))

def entries (t : Text) : List Entry :=
  match asked? t with
  | some n => clampEntry n
  | none => []

def text (s : Strength) : Text :=
  Text.ofNat s.value.val

end Strength

inductive AuthMethod where
  | none
  | simple
  | ssl
  | sasl
  | saslExternal
  | saslDigestMd5
  | saslGssapi
deriving DecidableEq, Repr, Inhabited

namespace AuthMethod

def all : List AuthMethod :=
  [none, simple, ssl, sasl, saslExternal, saslDigestMd5, saslGssapi]

def name : AuthMethod → Text
  | none => "NONE".toList
  | simple => "SIMPLE".toList
  | ssl => "SSL".toList
  | sasl => "SASL".toList
  | saslExternal => "SASL EXTERNAL".toList
  | saslDigestMd5 => "SASL DIGEST-MD5".toList
  | saslGssapi => "SASL GSSAPI".toList

/-- The method spelled by a text, whatever its case and the amount of white space. -/
def ofName? (t : Text) : Option AuthMethod :=
  all.find? fun m => Text.sameFold m.name (Text.join [' '] (Text.words t))

def read (t : Text) : Except ValueFault AuthMethod :=
  match ofName? t with
  | some m => .ok m
  | Option.none => .error (.unknownMethod (Text.trim t))

def parse (t : Text) : Except Error AuthMethod :=
  (read t).mapError (.invalidValue (.keyword (.bind .authMethod)))

end AuthMethod

end DirectoryAccess
