import DirectoryAccess.Text.Basic

/-!
# Closing quotes

A double quote closes a quoted run unless a backslash escapes it.  The module
states the rule twice: `cutQuote?` walks the text and skips whatever follows a
backslash, `closeRun?` looks at each quote and counts the backslashes in front
of it.
-/

namespace DirectoryAccess

namespace Text

/-- Cuts at the first double quote that no backslash escapes. -/
def cutQuote? : Text → Option (Text × Text)
  | [] => none
  | '\\' :: c :: cs =>
      (cutQuote? cs).map fun parts => ('\\' :: c :: parts.1, parts.2)
  | c :: cs =>
      if c = '"' then some ([], cs)
      else (cutQuote? cs).map fun parts => (c :: parts.1, parts.2)

def trailingBackslashes (t : Text) : Nat :=
  (t.reverse.takeWhile (· == '\\')).length

/--
Cuts at the first double quote with an even number of backslashes right before
it, counted from the last quote that was passed over.
-/
def closeRun? (t : Text) : Option (Text × Text) :=
  let chunk := t.takeWhile (· != '"')
  match _h : t.dropWhile (· != '"') with
  | [] => none
  | q :: rest =>
      if trailingBackslashes chunk % 2 = 1 then
        (closeRun? rest).map fun parts => (chunk ++ q :: parts.1, parts.2)
      else
        some (chunk, rest)
  termination_by t.length
  decreasing_by
    exact length_lt_of_dropWhile_eq_cons _h

theorem closeRun?_length {t run rest : Text} (h : closeRun? t = some (run, rest)) :
    rest.length < t.length := by
  fun_induction closeRun? t generalizing run with
  | case1 => simp at h
  | case2 =>
      rename_i heq hodd ih
      obtain ⟨⟨inner, last⟩, hinner, hpair⟩ := Option.map_eq_some_iff.1 h
      obtain ⟨-, rfl⟩ := Prod.mk.inj hpair
      exact Nat.lt_trans (ih hinner) (length_lt_of_dropWhile_eq_cons heq)
  | case3 =>
      rename_i heq hodd
      simp only [Option.some.injEq, Prod.mk.injEq] at h
      obtain ⟨-, rfl⟩ := h
      exact length_lt_of_dropWhile_eq_cons heq

/-- Holds for text whose every double quote is escaped, so that it can stand between quotes. -/
def hasNoOpenQuote (t : Text) : Bool :=
  (cutQuote? t).isNone

end Text

end DirectoryAccess
