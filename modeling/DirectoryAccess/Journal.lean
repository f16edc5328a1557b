/-!
# Journaled computations

A computation that may fail and that leaves entries in a journal on its way.
The entries of a failed computation are those left before the failure.  The
result of a sequence of steps does not depend on the entries, which the lemmas
on `result` say for each way of building one.
-/

namespace DirectoryAccess

/-- The weight of a journal entry, from the weightiest to the lightest. -/
inductive Weight where
  | info
  | debug
  | trace
deriving DecidableEq, Repr

/-- The rank of a weight: an entry is kept if its rank is at most that of the chosen weight. -/
def Weight.rank : Weight → Nat
  | info => 0
  | debug => 1
  | trace => 2

def Weight.name : Weight → String
  | info => "INFO"
  | debug => "DEBUG"
  | trace => "TRACE"

structure Entry where
  weight : Weight
  text : List Char
deriving DecidableEq, Repr

def Entry.line (e : Entry) : String :=
  e.weight.name ++ " " ++ String.ofList e.text

/-- The result of a computation together with the entries that it left. -/
structure Journaled (ε α : Type) where
  entries : List Entry
  result : Except ε α

namespace Journaled

variable {ε α β : Type}

instance : Monad (Journaled ε) where
  pure a := ⟨[], .ok a⟩
  bind x f :=
    match x.result with
    | .error e => ⟨x.entries, .error e⟩
    | .ok a => ⟨x.entries ++ (f a).entries, (f a).result⟩

def lift (r : Except ε α) : Journaled ε α :=
  ⟨[], r⟩

def fail (e : ε) : Journaled ε α :=
  ⟨[], .error e⟩

def leave (entries : List Entry) : Journaled ε Unit :=
  ⟨entries, .ok ()⟩

@[simp] theorem result_pure (a : α) : (pure a : Journaled ε α).result = .ok a :=
  rfl

@[simp] theorem result_lift (r : Except ε α) : (lift r).result = r :=
  rfl

@[simp] theorem result_fail (e : ε) : (fail e : Journaled ε α).result = .error e :=
  rfl

@[simp] theorem result_leave (entries : List Entry) :
    (leave entries : Journaled ε Unit).result = .ok () :=
  rfl

@[simp] theorem result_bind (x : Journaled ε α) (f : α → Journaled ε β) :
    (x >>= f).result = x.result >>= fun a => (f a).result := by
  rcases x with ⟨entries, _ | a⟩ <;> rfl

end Journaled

end DirectoryAccess
