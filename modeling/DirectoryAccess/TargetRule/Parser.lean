import DirectoryAccess.Journal
import DirectoryAccess.TargetRule.Basic
import DirectoryAccess.Token.Scan

/-!
# Reading target rules

A rule is a sequence of clauses `(keyword operator "value" || "value")`.  A
clause is read before it is dropped, so that a fault in a dropped clause is a
fault of the rule.
-/

namespace DirectoryAccess

namespace TargetRule

/-- Reads quoted values separated by bars, and the parenthesis that closes the clause. -/
def valuesFrom (k : TargetKeyword) : List TargetToken → Except Error (List Text × List TargetToken)
  | .value v :: .bars :: rest => (valuesFrom k rest).map fun found => (v :: found.1, found.2)
  | .value v :: .closeParen :: rest => .ok ([v], rest)
  | .value _ :: rest => .error (.grammar (.noSeparator k rest.head?))
  | tokens => .error (.grammar (.noQuotedValue k tokens.head?))

/-- Reads one clause from the front of the tokens and returns those that it leaves. -/
def clauseFrom (tokens : List TargetToken) : Except Error (Clause × List TargetToken) :=
  match tokens with
  | .openParen :: .keyword name :: rest => do
      let keyword ← TargetKeyword.parse name
      match rest with
      | .operator op :: values =>
          let (raws, after) ← valuesFrom keyword values
          let value ← Value.parseTarget keyword raws
          return (⟨keyword, op, value⟩, after)
      | _ => throw (.grammar (.noEquality keyword rest.head?))
  | _ => .error (.grammar (.noClause tokens.head?))

theorem valuesFrom_length {k : TargetKeyword} {tokens rest : List TargetToken} {raws : List Text}
    (h : valuesFrom k tokens = .ok (raws, rest)) : rest.length < tokens.length := by
  fun_induction valuesFrom k tokens generalizing raws with
  | case1 v inner ih =>
      cases hinner : valuesFrom k inner with
      | error e => simp [hinner, Except.map] at h
      | ok found =>
          simp only [hinner, Except.map, Except.ok.injEq, Prod.mk.injEq] at h
          obtain ⟨-, rfl⟩ := h
          have := ih hinner
          simp only [List.length_cons]
          omega
  | case2 v inner =>
      simp only [Except.ok.injEq, Prod.mk.injEq] at h
      obtain ⟨-, rfl⟩ := h
      simp only [List.length_cons]
      omega
  | case3 => simp at h
  | case4 => simp at h

theorem clauseFrom_length {tokens rest : List TargetToken} {c : Clause}
    (h : clauseFrom tokens = .ok (c, rest)) : rest.length < tokens.length := by
  unfold clauseFrom at h
  split at h
  · rename_i name inner
    simp only [bind, Except.bind] at h
    split at h
    · simp at h
    · split at h
      · rename_i op values
        split at h
        · simp at h
        · rename_i found hvalues
          obtain ⟨raws, after⟩ := found
          split at h
          · simp at h
          · simp only [pure, Except.pure, Except.ok.injEq, Prod.mk.injEq] at h
            obtain ⟨-, rfl⟩ := h
            have := valuesFrom_length hvalues
            simp only [List.length_cons]
            omega
      · simp [throw, throwThe, MonadExceptOf.throw] at h
  · simp at h

/-- Reads clauses up to the end of the tokens and pushes them onto a rule. -/
def pushClauses (r : TargetRule) (tokens : List TargetToken) : Journaled Error TargetRule :=
  if tokens.isEmpty then pure r
  else
    match _h : clauseFrom tokens with
    | .error e => .fail e
    | .ok (c, rest) => do
        .leave (r.pushEntries c)
        pushClauses (r.push c) rest
  termination_by tokens.length
  decreasing_by exact clauseFrom_length _h

def tokensEntry (tokens : List TargetToken) : Entry :=
  ⟨.trace, "target rule tokens ".toList ++ Text.displayList (tokens.map TargetToken.display)⟩

def journaledParse (t : Text) : Journaled Error TargetRule := do
  let tokens ← .lift (TargetToken.tokens t)
  .leave [tokensEntry tokens]
  pushClauses empty tokens

def parse (t : Text) : Except Error TargetRule :=
  (journaledParse t).result

end TargetRule

end DirectoryAccess
