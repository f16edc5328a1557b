import DirectoryAccess.Proofs.Run
import DirectoryAccess.Text.Quotes
import Mathlib.Data.List.Induction

/-!
# Escapes and closing quotes

A backslash escapes the character behind it, unless it is escaped itself.  Both
ways of finding a closing quote cut at the first quote that is not escaped, and
a text can stand between quotes if its own quotes are escaped and nothing is
left to escape at its end.
-/

namespace DirectoryAccess

namespace Text

/-- Holds if the character behind the text is escaped, given whether its first one is. -/
def escaping (escaped : Bool) : Text → Bool
  | [] => escaped
  | c :: cs => escaping (!escaped && c == '\\') cs

/-- Holds if every double quote is escaped, given whether the first character is. -/
def quotesEscaped (escaped : Bool) : Text → Bool
  | [] => true
  | c :: cs => (escaped || c != '"') && quotesEscaped (!escaped && c == '\\') cs

@[simp] theorem escaping_nil (e : Bool) : escaping e [] = e :=
  rfl

@[simp] theorem quotesEscaped_nil (e : Bool) : quotesEscaped e [] = true :=
  rfl

theorem escaping_append (e : Bool) (s t : Text) :
    escaping e (s ++ t) = escaping (escaping e s) t := by
  induction s generalizing e with
  | nil => rfl
  | cons c cs ih => exact ih _

theorem quotesEscaped_append (e : Bool) (s t : Text) :
    quotesEscaped e (s ++ t) = (quotesEscaped e s && quotesEscaped (escaping e s) t) := by
  induction s generalizing e with
  | nil => rfl
  | cons c cs ih =>
      simp only [List.cons_append, quotesEscaped, escaping, ih, Bool.and_assoc]

/-- Behind a character that is no backslash nothing is escaped. -/
theorem escaping_cons {c : Char} (hc : c ≠ '\\') (e : Bool) (t : Text) :
    escaping e (c :: t) = escaping false t := by
  rw [escaping, beq_false_of_ne hc, Bool.and_false]

theorem escaping_append_cons {c : Char} (hc : c ≠ '\\') (e : Bool) (s t : Text) :
    escaping e (s ++ c :: t) = escaping false t := by
  rw [escaping_append, escaping_cons hc]

theorem escaping_of_not_mem {t : Text} (h : '\\' ∉ t) : escaping false t = false := by
  induction t with
  | nil => rfl
  | cons c t ih =>
      have hc : c ≠ '\\' := fun heq => h (by simp [heq])
      rw [escaping_cons hc]
      exact ih fun hmem => h (List.mem_cons_of_mem c hmem)

theorem quotesEscaped_cons {c : Char} (hquote : c ≠ '"') (hslash : c ≠ '\\') (e : Bool) (t : Text) :
    quotesEscaped e (c :: t) = quotesEscaped false t := by
  rw [quotesEscaped, beq_false_of_ne hslash, bne_iff_ne.2 hquote, Bool.or_true, Bool.true_and,
    Bool.and_false]

/-- A character that neither is a quote nor escapes one parts a text in two. -/
theorem quotesEscaped_append_cons {c : Char} (hquote : c ≠ '"') (hslash : c ≠ '\\') (e : Bool)
    (s t : Text) :
    quotesEscaped e (s ++ c :: t) = (quotesEscaped e s && quotesEscaped false t) := by
  rw [quotesEscaped_append, quotesEscaped_cons hquote hslash]

theorem quotesEscaped_of_not_mem {t : Text} (h : '"' ∉ t) (e : Bool) :
    quotesEscaped e t = true := by
  induction t generalizing e with
  | nil => rfl
  | cons c cs ih =>
      have hc : c ≠ '"' := fun heq => h (by simp [heq])
      have hcs : '"' ∉ cs := fun hmem => h (List.mem_cons_of_mem c hmem)
      simp [quotesEscaped, hc, ih hcs]

theorem cutQuote?_cons_quote (t : Text) : cutQuote? ('"' :: t) = some ([], t) := by
  cases t <;> rfl

theorem cutQuote?_cons {c : Char} (hquote : c ≠ '"') (hslash : c ≠ '\\') (t : Text) :
    cutQuote? (c :: t) = (cutQuote? t).map fun parts => (c :: parts.1, parts.2) := by
  rw [cutQuote?, if_neg hquote]
  exact fun _ _ heq => absurd heq hslash

/-- A front that leaves nothing open and escapes nothing behind it is passed over. -/
theorem cutQuote?_append {s t : Text} (hquotes : quotesEscaped false s = true)
    (hescape : escaping false s = false) :
    cutQuote? (s ++ t) = (cutQuote? t).map fun parts => (s ++ parts.1, parts.2) := by
  fun_induction cutQuote? s with
  | case1 => simp
  | case2 c cs ih =>
      have hcs := ih (by simpa [quotesEscaped] using hquotes) (by simpa [escaping] using hescape)
      rw [List.cons_append, List.cons_append, cutQuote?, hcs, Option.map_map]
      rfl
  | case3 cs hno => simp [quotesEscaped] at hquotes
  | case4 c cs hno hc ih =>
      have hslash : c ≠ '\\' := by
        rintro rfl
        cases cs with
        | nil => simp [escaping] at hescape
        | cons d cs => exact hno d cs rfl rfl
      rw [quotesEscaped_cons hc hslash] at hquotes
      rw [escaping_cons hslash] at hescape
      rw [List.cons_append, cutQuote?_cons hc hslash, ih hquotes hescape, Option.map_map]
      rfl

theorem cutQuote?_eq_some_iff {t a b : Text} :
    cutQuote? t = some (a, b) ↔
      t = a ++ '"' :: b ∧ quotesEscaped false a = true ∧ escaping false a = false := by
  constructor
  · intro h
    fun_induction cutQuote? t generalizing a with
    | case1 => cases h
    | case2 c cs ih =>
        obtain ⟨⟨a', b'⟩, hparts, heq⟩ := Option.map_eq_some_iff.1 h
        obtain ⟨rfl, rfl⟩ := Prod.mk.inj heq
        obtain ⟨rfl, hquotes, hescape⟩ := ih hparts
        exact ⟨rfl, by simpa [quotesEscaped] using hquotes, by simpa [escaping] using hescape⟩
    | case3 cs hno =>
        cases h
        exact ⟨rfl, rfl, rfl⟩
    | case4 c cs hno hc ih =>
        obtain ⟨⟨a', b'⟩, hparts, heq⟩ := Option.map_eq_some_iff.1 h
        obtain ⟨rfl, rfl⟩ := Prod.mk.inj heq
        obtain ⟨rfl, hquotes, hescape⟩ := ih hparts
        have hslash : c ≠ '\\' := by
          rintro rfl
          cases a' with
          | nil => exact hno '"' b' rfl rfl
          | cons d a' => exact hno d (a' ++ '"' :: b') rfl rfl
        rw [quotesEscaped_cons hc hslash, escaping_cons hslash]
        exact ⟨rfl, hquotes, hescape⟩
  · rintro ⟨rfl, hquotes, hescape⟩
    rw [cutQuote?_append hquotes hescape, cutQuote?_cons_quote]
    simp

theorem cutQuote?_eq_none_iff {t : Text} : cutQuote? t = none ↔ quotesEscaped false t = true := by
  constructor
  · intro h
    fun_induction cutQuote? t with
    | case1 => rfl
    | case2 c cs ih =>
        have hcs := ih (Option.map_eq_none_iff.1 h)
        simpa [quotesEscaped] using hcs
    | case3 cs hno => cases h
    | case4 c cs hno hc ih =>
        have hcs := ih (Option.map_eq_none_iff.1 h)
        by_cases hslash : c = '\\'
        · subst hslash
          cases cs with
          | nil => rfl
          | cons d cs => exact absurd rfl (hno d cs rfl)
        · rw [quotesEscaped_cons hc hslash]
          exact hcs
  · intro h
    cases hcut : cutQuote? t with
    | none => rfl
    | some parts =>
        obtain ⟨a, b⟩ := parts
        obtain ⟨rfl, -, hescape⟩ := cutQuote?_eq_some_iff.1 hcut
        simp [quotesEscaped_append, quotesEscaped, hescape] at h

theorem hasNoOpenQuote_eq (t : Text) : hasNoOpenQuote t = quotesEscaped false t := by
  rw [Bool.eq_iff_iff, ← cutQuote?_eq_none_iff, hasNoOpenQuote, Option.isNone_iff_eq_none]

theorem cutQuote?_append_escaped {s t : Text} (hquotes : quotesEscaped false s = true)
    (hescape : escaping false s = true) (c : Char) :
    cutQuote? (s ++ c :: t) = (cutQuote? t).map fun parts => (s ++ c :: parts.1, parts.2) := by
  have hfront : quotesEscaped false (s ++ [c]) = true := by
    simp [quotesEscaped_append, quotesEscaped, hquotes, hescape]
  have hback : escaping false (s ++ [c]) = false := by
    simp [escaping_append, escaping, hescape]
  rw [← List.singleton_append, ← List.append_assoc, cutQuote?_append hfront hback]
  simp

theorem cutQuote?_of_isPrefix {s t a b : Text} (hstart : s <+: t)
    (h : cutQuote? s = some (a, b)) : ∃ b', cutQuote? t = some (a, b') := by
  obtain ⟨rest, rfl⟩ := hstart
  obtain ⟨rfl, hquotes, hescape⟩ := cutQuote?_eq_some_iff.1 h
  refine ⟨b ++ rest, cutQuote?_eq_some_iff.2 ⟨?_, hquotes, hescape⟩⟩
  rw [List.append_assoc, List.cons_append]

theorem trailingBackslashes_append_singleton (t : Text) (c : Char) :
    trailingBackslashes (t ++ [c]) = if c = '\\' then trailingBackslashes t + 1 else 0 := by
  by_cases hc : c = '\\'
  · simp [trailingBackslashes, hc]
  · simp [trailingBackslashes, hc]

/-- What follows a text is escaped if an odd number of backslashes ends the text. -/
theorem trailingBackslashes_odd_iff (t : Text) :
    trailingBackslashes t % 2 = 1 ↔ escaping false t = true := by
  induction t using List.reverseRecOn with
  | nil => simp [trailingBackslashes]
  | append_singleton t c ih =>
      rw [trailingBackslashes_append_singleton, escaping_append]
      by_cases hc : c = '\\'
      · subst hc
        cases hescape : escaping false t with
        | false =>
            have hodd := mt ih.1 (by rw [hescape]; decide)
            simp [escaping]
            omega
        | true =>
            have hodd := ih.2 hescape
            simp [escaping]
            omega
      · rw [escaping_cons hc]
        simp [hc]

theorem takeWhile_ne_append {t rest : Text} (h : t.dropWhile (· != '"') = rest) :
    t = t.takeWhile (· != '"') ++ rest := by
  rw [← h, List.takeWhile_append_dropWhile]

theorem dropWhile_ne_eq_cons {t rest : Text} {q : Char} (h : t.dropWhile (· != '"') = q :: rest) :
    q = '"' := by
  simpa using Run.head?_dropWhile (· != '"') t q (by simp [h])

/-- Counting the backslashes in front of each quote finds the first quote that is not escaped. -/
theorem closeRun?_eq_cutQuote? (t : Text) : closeRun? t = cutQuote? t := by
  have hchunk (t : Text) : quotesEscaped false (t.takeWhile (· != '"')) = true := by
    refine quotesEscaped_of_not_mem (fun hmem => ?_) false
    simpa using List.mem_takeWhile_imp hmem
  fun_induction closeRun? t with
  | case1 t hdrop =>
      have ht := takeWhile_ne_append hdrop
      rw [List.append_nil] at ht
      rw [eq_comm, cutQuote?_eq_none_iff, ht]
      exact hchunk t
  | case2 t chunk q rest hdrop hodd ih =>
      obtain rfl := dropWhile_ne_eq_cons hdrop
      have ht := takeWhile_ne_append hdrop
      have hescape := (trailingBackslashes_odd_iff chunk).1 hodd
      rw [ih, ← cutQuote?_append_escaped (hchunk t) hescape, ← ht]
  | case3 t chunk q rest hdrop heven =>
      obtain rfl := dropWhile_ne_eq_cons hdrop
      have hescape := mt (trailingBackslashes_odd_iff chunk).2 heven
      rw [eq_comm, cutQuote?_eq_some_iff]
      exact ⟨takeWhile_ne_append hdrop, hchunk t, by simpa using hescape⟩

/-- Holds for text that reads back as itself when it stands between quotes. -/
def isClosed (t : Text) : Bool :=
  closeRun? (t ++ ['"']) == some (t, [])

theorem isClosed_iff {t : Text} :
    isClosed t = true ↔ quotesEscaped false t = true ∧ escaping false t = false := by
  rw [isClosed, beq_iff_eq, closeRun?_eq_cutQuote?, cutQuote?_eq_some_iff]
  exact and_iff_right rfl

/-- A text without open quotes that is not closed escapes what follows it. -/
theorem escaping_of_not_isClosed {t : Text} (hquotes : quotesEscaped false t = true)
    (hclosed : isClosed t = false) : escaping false t = true := by
  by_contra hescape
  rw [isClosed_iff.2 ⟨hquotes, by simpa using hescape⟩] at hclosed
  cases hclosed

theorem closeRun?_of_isClosed {t : Text} (h : isClosed t = true) (rest : Text) :
    closeRun? (t ++ '"' :: rest) = some (t, rest) := by
  obtain ⟨hquotes, hescape⟩ := isClosed_iff.1 h
  rw [closeRun?_eq_cutQuote?, cutQuote?_eq_some_iff]
  exact ⟨rfl, hquotes, hescape⟩

/-- A text without open quotes runs up to the quote behind it, or takes that quote in and goes on. -/
theorem closeRun?_append_quote {t : Text} (hquotes : quotesEscaped false t = true) (rest : Text) :
    closeRun? (t ++ '"' :: rest) =
      if trailingBackslashes t % 2 = 0 then some (t, rest)
      else (closeRun? rest).map fun parts => (t ++ '"' :: parts.1, parts.2) := by
  have hodd := trailingBackslashes_odd_iff t
  cases hescape : escaping false t with
  | false =>
      rw [hescape] at hodd
      have heven : trailingBackslashes t % 2 = 0 := by simpa using hodd
      rw [if_pos heven]
      exact closeRun?_of_isClosed (isClosed_iff.2 ⟨hquotes, hescape⟩) rest
  | true =>
      have hnot : ¬trailingBackslashes t % 2 = 0 := by
        rw [hodd.2 hescape]
        decide
      rw [if_neg hnot, closeRun?_eq_cutQuote?, closeRun?_eq_cutQuote?,
        cutQuote?_append_escaped hquotes hescape]

/-- The text in front of the quote at which a run closes is closed. -/
theorem isClosed_of_closeRun? {t run rest : Text} (h : closeRun? t = some (run, rest)) :
    t = run ++ '"' :: rest ∧ isClosed run = true := by
  rw [closeRun?_eq_cutQuote?, cutQuote?_eq_some_iff] at h
  exact ⟨h.1, isClosed_iff.2 h.2⟩

end Text

end DirectoryAccess
