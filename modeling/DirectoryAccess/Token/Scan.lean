import DirectoryAccess.Error
import DirectoryAccess.Text.Quotes

/-!
# Scanning

A reader takes one token from the front of a text that does not start with a
separator.  Scanning skips separators and reads tokens until the text is used
up, or stops where no token starts.  The readers of both rule languages are
here, and the joining of `AND` with a `NOT` right behind it.
-/

namespace DirectoryAccess

/-- What a reader of tokens finds at the front of a text. -/
inductive Reading (τ : Type) where
  | token (t : τ) (rest : Text)
  /-- A quoted run without end; the fragment starts behind its opening quote. -/
  | openQuote (fragment : Text)
  | nothing

/-- A reader of tokens, which leaves less text than it gets. -/
structure TokenReader (τ : Type) where
  read : Text → Reading τ
  shortens : ∀ {text rest : Text} {t : τ}, read text = .token t rest → rest.length < text.length

/-- Where and why scanning stops. -/
inductive Halt where
  | noToken (fragment : Text)
  | openQuote (fragment : Text)
deriving DecidableEq, Repr

namespace TokenReader

variable {τ : Type}

def scan (r : TokenReader τ) (text : Text) : Except Halt (List τ) :=
  let next := Text.skipSeparators text
  if next.isEmpty then .ok []
  else
    match _h : r.read next with
    | .token t rest => (scan r rest).map (t :: ·)
    | .openQuote fragment => .error (.openQuote fragment)
    | .nothing => .error (.noToken next)
  termination_by text.length
  decreasing_by
    exact Nat.lt_of_lt_of_le (r.shortens _h) (List.dropWhile_sublist _).length_le

end TokenReader

def Place.ofFragment (whole fragment : Text) : Place :=
  ⟨whole.take (whole.length - fragment.length), fragment⟩

def Halt.fault (rule : RuleKind) (whole : Text) : Halt → ScanFault
  | noToken fragment => .noToken rule (.ofFragment whole fragment)
  | openQuote fragment => .openQuote rule (.ofFragment whole fragment)

theorem Operator.read?_length {t rest : Text} {op : Operator}
    (h : Operator.read? t = some (op, rest)) : rest.length < t.length := by
  unfold Operator.read? at h
  split at h <;> simp only [Option.some.injEq, Prod.mk.injEq, reduceCtorEq] at h <;>
    (obtain ⟨-, rfl⟩ := h; simp only [List.length_cons]; omega)

namespace BindToken

def isBareChar (c : Char) : Bool :=
  !(Text.isBlank c || c == '(' || c == ')' || c == '"' || c == '=' || c == '!' || c == '<' ||
    c == '>')

/-- What a word without quotes stands for: a connective in either case, or a value. -/
def kindOfWord (word : Text) : BindTokenKind :=
  let name := Text.upper word
  if name == "AND".toList then .and
  else if name == "OR".toList then .or
  else if name == "NOT".toList then .not
  else .value false

def readWord (t : Text) : Reading BindToken :=
  match Text.run? isBareChar t with
  | some (word, rest) => .token ⟨kindOfWord word, word⟩ rest
  | none => .nothing

def read (t : Text) : Reading BindToken :=
  match t with
  | '(' :: rest => .token ⟨.openParen, ['(']⟩ rest
  | ')' :: rest => .token ⟨.closeParen, [')']⟩ rest
  | '"' :: run =>
      match Text.closeRun? run with
      | some (value, rest) => .token ⟨.value true, value⟩ rest
      | none => .openQuote run
  | _ =>
      match Operator.read? t with
      | some (op, rest) => .token ⟨.operator op, op.symbol⟩ rest
      | none => readWord t

theorem read_length {t rest : Text} {token : BindToken} (h : read t = .token token rest) :
    rest.length < t.length := by
  unfold read at h
  split at h
  · cases h; simp
  · cases h; simp
  · split at h
    · rename_i hclose
      cases h
      have := Text.closeRun?_length hclose
      simp only [List.length_cons]
      omega
    · cases h
  · split at h
    · rename_i hop
      cases h
      exact Operator.read?_length hop
    · unfold readWord at h
      split at h
      · rename_i hrun
        cases h
        exact Text.run?_length hrun
      · cases h

def reader : TokenReader BindToken :=
  ⟨read, read_length⟩

/-- Joins every `AND` with a `NOT` right behind it into one token. -/
def joinNots : List BindToken → List BindToken
  | a :: n :: rest =>
      if a.kind = .and && n.kind = .not then
        ⟨.andNot, a.text ++ ' ' :: n.text⟩ :: joinNots rest
      else a :: joinNots (n :: rest)
  | tokens => tokens

/-- The tokens of a bind rule, none of them without text. -/
def tokens (t : Text) : Except Error (List BindToken) :=
  match reader.scan t with
  | .error halt => .error (.scan (halt.fault .bind t))
  | .ok found =>
      let joined := joinNots found
      match joined.find? fun token => token.text.isEmpty with
      | some token => .error (.scan (.emptyToken token.kind (Text.trim t)))
      | none => .ok joined

end BindToken

namespace TargetToken

def isKeywordChar (c : Char) : Bool :=
  c.isAlpha || c == '_'

def read (t : Text) : Reading TargetToken :=
  match t with
  | '(' :: rest => .token .openParen rest
  | ')' :: rest => .token .closeParen rest
  | '!' :: '=' :: rest => .token (.operator .ne) rest
  | '=' :: rest => .token (.operator .eq) rest
  | '|' :: '|' :: rest => .token .bars rest
  | '"' :: run =>
      match Text.closeRun? run with
      | some (text, rest) => .token (.value text) rest
      | none => .openQuote run
  | _ =>
      match Text.run? isKeywordChar t with
      | some (name, rest) => .token (.keyword name) rest
      | none => .nothing

theorem read_length {t rest : Text} {token : TargetToken} (h : read t = .token token rest) :
    rest.length < t.length := by
  unfold read at h
  split at h
  · cases h; simp
  · cases h; simp
  · cases h; simp only [List.length_cons]; omega
  · cases h; simp
  · cases h; simp only [List.length_cons]; omega
  · split at h
    · rename_i hclose
      cases h
      have := Text.closeRun?_length hclose
      simp only [List.length_cons]
      omega
    · cases h
  · split at h
    · rename_i hrun
      cases h
      exact Text.run?_length hrun
    · cases h

def reader : TokenReader TargetToken :=
  ⟨read, read_length⟩

def tokens (t : Text) : Except Error (List TargetToken) :=
  match reader.scan t with
  | .error halt => .error (.scan (halt.fault .target t))
  | .ok found => .ok found

end TargetToken

end DirectoryAccess
