import DirectoryAccess.Proofs.Text.Escape
import DirectoryAccess.Proofs.Text.Split

/-!
# Splitting outside quotes

The splitter passes over a closed quoted run as a whole, and over the characters
outside quotes one by one.  A run that is not closed reaches to the end of the
text.
-/

namespace DirectoryAccess

namespace Text

theorem splitUnquotedFrom_ne_nil (d : Char) (quoted : Bool) (t : Text) :
    splitUnquotedFrom d quoted t ≠ [] := by
  fun_cases splitUnquotedFrom d quoted t with
  | case1 => simp
  | case2 => exact consPart_ne_nil _ _
  | case3 => exact consPart_ne_nil _ _
  | case4 => simp
  | case5 => exact consPart_ne_nil _ _

theorem exists_splitUnquotedFrom (d : Char) (quoted : Bool) (t : Text) :
    ∃ part parts, splitUnquotedFrom d quoted t = part :: parts :=
  List.exists_cons_of_ne_nil (splitUnquotedFrom_ne_nil d quoted t)

theorem join_splitUnquotedFrom (d : Char) (quoted : Bool) (t : Text) :
    join [d] (splitUnquotedFrom d quoted t) = t := by
  fun_induction splitUnquotedFrom d quoted t with
  | case1 => rfl
  | case2 quoted c cs ih => rw [join_consPart, join_consPart, ih]
  | case3 quoted cs ih => rw [join_consPart, ih]
  | case4 quoted c cs hslash hquote hcut ih =>
      rw [join_nil_cons _ (splitUnquotedFrom_ne_nil d quoted cs), ih]
      simp only [Bool.and_eq_true, decide_eq_true_eq] at hcut
      rw [hcut.1, List.singleton_append]
  | case5 quoted c cs hslash hquote hcut ih => rw [join_consPart, ih]

variable {d : Char} {t p : Text} {ps : List Text}

theorem splitUnquotedFrom_cons {c : Char} {quoted : Bool} (hslash : c ≠ '\\') (hquote : c ≠ '"')
    (t : Text) :
    splitUnquotedFrom d quoted (c :: t) =
      if c = d && !quoted then [] :: splitUnquotedFrom d quoted t
      else consPart c (splitUnquotedFrom d quoted t) := by
  rw [splitUnquotedFrom]
  · intro e cs he
    cases he
    exact absurd rfl hslash
  · exact hquote

theorem splitUnquotedFrom_quote (quoted : Bool) (t : Text) :
    splitUnquotedFrom d quoted ('"' :: t) = consPart '"' (splitUnquotedFrom d (!quoted) t) := by
  rw [splitUnquotedFrom]

/-- Characters outside quotes that are no delimiter belong to the first part. -/
theorem splitUnquotedFrom_append {s : Text} (hs : ∀ c ∈ s, c ≠ '\\' ∧ c ≠ '"' ∧ c ≠ d)
    (ht : splitUnquotedFrom d false t = p :: ps) :
    splitUnquotedFrom d false (s ++ t) = (s ++ p) :: ps := by
  induction s with
  | nil => exact ht
  | cons c cs ih =>
      obtain ⟨hslash, hquote, hd⟩ := hs c (by simp)
      have hrest := ih fun e he => hs e (List.mem_cons_of_mem c he)
      rw [List.cons_append, splitUnquotedFrom_cons hslash hquote, hrest,
        if_neg (by simp [hd]), consPart, List.cons_append]

theorem splitUnquotedFrom_delimiter (hslash : d ≠ '\\') (hquote : d ≠ '"') (t : Text) :
    splitUnquotedFrom d false (d :: t) = [] :: splitUnquotedFrom d false t := by
  rw [splitUnquotedFrom_cons hslash hquote, if_pos (by simp)]

/-- Inside quotes everything up to the closing quote belongs to the first part. -/
theorem splitUnquotedFrom_of_cutQuote? {run : Text} {u : Text} (hcut : cutQuote? u = some (run, t))
    (ht : splitUnquotedFrom d false t = p :: ps) :
    splitUnquotedFrom d true u = (run ++ '"' :: p) :: ps := by
  fun_induction cutQuote? u generalizing run with
  | case1 => cases hcut
  | case2 c cs ih =>
      obtain ⟨⟨a, b⟩, hparts, heq⟩ := Option.map_eq_some_iff.1 hcut
      obtain ⟨rfl, rfl⟩ := Prod.mk.inj heq
      rw [splitUnquotedFrom, ih hparts]
      rfl
  | case3 cs hno =>
      simp only [Option.some.injEq, Prod.mk.injEq] at hcut
      obtain ⟨rfl, rfl⟩ := hcut
      rw [splitUnquotedFrom_quote, Bool.not_true, ht]
      rfl
  | case4 c cs hno hquote ih =>
      obtain ⟨⟨a, b⟩, hparts, heq⟩ := Option.map_eq_some_iff.1 hcut
      obtain ⟨rfl, rfl⟩ := Prod.mk.inj heq
      have hrest := ih hparts
      by_cases hslash : c = '\\'
      · subst hslash
        cases cs with
        | nil => cases hparts
        | cons e cs => exact absurd rfl (hno e cs rfl)
      · rw [splitUnquotedFrom_cons hslash hquote, if_neg (by simp), hrest]
        rfl

/-- A closed quoted run belongs to one part. -/
theorem splitUnquotedFrom_quoted {run : Text} (hrun : isClosed run = true)
    (ht : splitUnquotedFrom d false t = p :: ps) :
    splitUnquotedFrom d false ('"' :: (run ++ '"' :: t)) = ('"' :: (run ++ '"' :: p)) :: ps := by
  have hcut : cutQuote? (run ++ '"' :: t) = some (run, t) := by
    rw [← closeRun?_eq_cutQuote?, closeRun?_of_isClosed hrun]
  rw [splitUnquotedFrom_quote, Bool.not_false, splitUnquotedFrom_of_cutQuote? hcut ht]
  rfl

end Text

end DirectoryAccess
