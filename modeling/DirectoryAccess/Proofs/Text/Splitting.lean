import DirectoryAccess.Proofs.Text.Depth
import DirectoryAccess.Proofs.Text.Unquoted
import DirectoryAccess.Proofs.Text.Walk

/-!
# Where text is split

The three splitters that leave some delimiters alone differ in what they carry along the text:
whether the next character is escaped, whether it stands in quotes as well, or how many
parentheses are open.
-/

namespace DirectoryAccess

namespace Text

/-- The walk that knows whether the next character is escaped. -/
def Walk.escapes : Walk Bool where
  start := false
  after c escaped := !escaped && c == '\\'

theorem Walk.behind_escapes (escaped : Bool) (t : Text) :
    Walk.escapes.behind escaped t = escaping escaped t := by
  induction t generalizing escaped with
  | nil => rfl
  | cons c t ih => exact ih _

theorem not_singleton_isPrefix {c d : Char} (h : d ≠ c) (t : Text) : ¬[d] <+: c :: t := by
  rw [List.cons_prefix_cons]
  exact fun hd => h hd.1

theorem splitEscaped_splitsInto {d : Char} (hslash : d ≠ '\\') (t : Text) :
    Walk.escapes.SplitsInto [d] false t (splitEscaped d t) := by
  fun_induction splitEscaped d t with
  | case1 => exact .nil false
  | case2 c cs ih =>
      have hescaped : Walk.escapes.SplitsInto [d] true (c :: cs) (consPart c (splitEscaped d cs)) :=
        .keep (fun hstart => absurd hstart (by decide)) ih
      exact .keep (fun _ => not_singleton_isPrefix hslash _) hescaped
  | case3 cs hno ih => exact .cut ih
  | case4 c cs hno hc ih =>
      refine .keep (fun _ => not_singleton_isPrefix (Ne.symm hc) _) ?_
      by_cases hlast : c = '\\'
      · -- The backslash escapes nothing, so that it stands at the end.
        cases cs with
        | nil => exact .nil _
        | cons e cs => exact absurd rfl (hno e cs hlast)
      · have hafter : Walk.escapes.after c false = false := beq_false_of_ne hlast
        rw [hafter]
        exact ih

theorem splitEscaped_splitsAtFree {d : Char} (hslash : d ≠ '\\') (t : Text) :
    SplitsAtFree (splitEscaped d) [d] (fun front => escaping false front = false) t := by
  refine Walk.escapes.splitsAtFree (by simp) ?_ (splitEscaped_splitsInto hslash) (fun front => ?_) t
  · rw [Walk.behind_escapes]
    exact escaping_cons hslash false []
  · rw [← Walk.behind_escapes]
    rfl

/--
Holds if the character behind the text stands in quotes, given whether its first one is escaped
and whether it stands in quotes.
-/
def quoting (escaped quoted : Bool) : Text → Bool
  | [] => quoted
  | c :: cs =>
      quoting (!escaped && c == '\\') (if !escaped && c == '"' then !quoted else quoted) cs

/-- The walk that knows as well whether the next character stands in quotes. -/
def Walk.quotes : Walk (Bool × Bool) where
  start := (false, false)
  after c state :=
    (!state.1 && c == '\\', if !state.1 && c == '"' then !state.2 else state.2)

theorem Walk.behind_quotes (escaped quoted : Bool) (t : Text) :
    Walk.quotes.behind (escaped, quoted) t = (escaping escaped t, quoting escaped quoted t) := by
  induction t generalizing escaped quoted with
  | nil => rfl
  | cons c t ih => exact ih _ _

theorem Walk.after_quotes {c : Char} (hslash : c ≠ '\\') (hquote : c ≠ '"') (quoted : Bool) :
    Walk.quotes.after c (false, quoted) = (false, quoted) := by
  simp [quotes, hslash, hquote]

theorem splitUnquotedFrom_splitsInto {d : Char} (hslash : d ≠ '\\') (hquote : d ≠ '"')
    (quoted : Bool) (t : Text) :
    Walk.quotes.SplitsInto [d] (false, quoted) t (splitUnquotedFrom d quoted t) := by
  fun_induction splitUnquotedFrom d quoted t with
  | case1 quoted => exact .nil (false, quoted)
  | case2 quoted c cs ih =>
      have hescaped : Walk.quotes.SplitsInto [d] (true, quoted) (c :: cs)
          (consPart c (splitUnquotedFrom d quoted cs)) := by
        refine .keep (fun hstart => ?_) ih
        cases hstart
      exact .keep (fun _ => not_singleton_isPrefix hslash _) hescaped
  | case3 quoted cs ih => exact .keep (fun _ => not_singleton_isPrefix hquote _) ih
  | case4 quoted c cs hno hnoquote hcut ih =>
      simp only [Bool.and_eq_true, decide_eq_true_eq, Bool.not_eq_true'] at hcut
      obtain ⟨rfl, rfl⟩ := hcut
      exact .cut ih
  | case5 quoted c cs hno hnoquote hkeep ih =>
      have hstays : (false, quoted) = Walk.quotes.start → ¬[d] <+: c :: cs := by
        intro hstart
        cases hstart
        exact not_singleton_isPrefix (fun hd => hkeep (by simp [hd])) cs
      refine .keep hstays ?_
      by_cases hlast : c = '\\'
      · cases cs with
        | nil => exact .nil _
        | cons e cs => exact absurd rfl (hno e cs hlast)
      · rw [Walk.after_quotes hlast hnoquote]
        exact ih

theorem splitUnquoted_splitsAtFree {d : Char} (hslash : d ≠ '\\') (hquote : d ≠ '"')
    (t : Text) :
    SplitsAtFree (splitUnquoted d) [d]
      (fun front => escaping false front = false ∧ quoting false false front = false) t := by
  refine Walk.quotes.splitsAtFree (by simp) ?_ (splitUnquotedFrom_splitsInto hslash hquote false)
    (fun front => ?_) t
  · exact Walk.after_quotes hslash hquote false
  · rw [← Prod.mk.injEq, ← Walk.behind_quotes]
    rfl

/-- The walk that knows how many parentheses are open. -/
def Walk.parens : Walk Nat where
  start := 0
  after := depthAfter

theorem splitAtDepth_splitsInto {word : Text} (hne : word ≠ []) (depth : Nat) (t : Text) :
    Walk.parens.SplitsInto word depth t (splitAtDepth word depth t) := by
  fun_induction splitAtDepth word depth t with
  | case1 depth => exact .nil depth
  | case2 depth c cs hhere ih =>
      simp only [Bool.and_eq_true, decide_eq_true_eq, isSome_strip?_iff] at hhere
      obtain ⟨rfl, hword⟩ := hhere
      rw [cons_eq_append_drop hne hword]
      exact .cut ih
  | case3 depth c cs hhere ih =>
      simp only [Bool.and_eq_true, decide_eq_true_eq, isSome_strip?_iff, not_and] at hhere
      exact .keep hhere ih

theorem splitAtDepthZero_splitsAtFree {word : Text} (hne : word ≠ [])
    (hparens : ∀ c ∈ word, c ≠ '(' ∧ c ≠ ')') (t : Text) :
    SplitsAtFree (splitAtDepthZero word) word (fun front => depthBehind 0 front = 0) t :=
  Walk.parens.splitsAtFree hne (depthBehind_of_forall hparens 0) (splitAtDepth_splitsInto hne 0)
    (fun _ => Iff.rfl) t

/--
The splitters lose nothing of a text.  The first cuts it at the delimiters that are neither
escaped nor in quotes, the second at those that are not escaped, the third at the words outside
parentheses; none cuts elsewhere, and no such delimiter is left in a part.
-/
theorem splitters_cut_at_free_delimiters {d : Char} (hslash : d ≠ '\\') (hquote : d ≠ '"')
    {word : Text} (hne : word ≠ []) (hparens : ∀ c ∈ word, c ≠ '(' ∧ c ≠ ')') (t : Text) :
    SplitsAtFree (splitUnquoted d) [d]
        (fun front => escaping false front = false ∧ quoting false false front = false) t ∧
      SplitsAtFree (splitEscaped d) [d] (fun front => escaping false front = false) t ∧
      SplitsAtFree (splitAtDepthZero word) word (fun front => depthBehind 0 front = 0) t :=
  ⟨splitUnquoted_splitsAtFree hslash hquote t, splitEscaped_splitsAtFree hslash t,
    splitAtDepthZero_splitsAtFree hne hparens t⟩

/-- Delimiters that are escaped, quoted and in parentheses, a `)` too many and an `&` too many. -/
def mixedText : Text :=
  "é\\,\"a,b\",)(&&)&&&c,".toList

theorem splitters_cut_at_free_delimiters_of_mixedText :
    (',' ≠ '\\' ∧ ',' ≠ '"' ∧ "&&".toList ≠ [] ∧ ∀ c ∈ "&&".toList, c ≠ '(' ∧ c ≠ ')') ∧
      splitUnquoted ',' mixedText =
        ["é\\,\"a,b\"".toList, ")(&&)&&&c".toList, []] ∧
      splitEscaped ',' mixedText =
        ["é\\,\"a".toList, "b\"".toList, ")(&&)&&&c".toList, []] ∧
      splitAtDepthZero "&&".toList mixedText =
        ["é\\,\"a,b\",)(&&)".toList, "&c,".toList] ∧
      (SplitsAtFree (splitUnquoted ',') [',']
          (fun front => escaping false front = false ∧ quoting false false front = false)
          mixedText ∧
        SplitsAtFree (splitEscaped ',') [','] (fun front => escaping false front = false)
          mixedText ∧
        SplitsAtFree (splitAtDepthZero "&&".toList) "&&".toList
          (fun front => depthBehind 0 front = 0) mixedText) := by
  have hparens : ∀ c ∈ "&&".toList, c ≠ '(' ∧ c ≠ ')' := forall_mem_of_all (by decide)
  refine ⟨⟨by decide, by decide, by decide, hparens⟩, by decide, by decide, by decide +kernel, ?_⟩
  exact splitters_cut_at_free_delimiters (by decide) (by decide) (by decide) hparens mixedText

end Text

end DirectoryAccess
