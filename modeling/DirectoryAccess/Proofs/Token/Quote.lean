import DirectoryAccess.Proofs.Text.Escape
import DirectoryAccess.Proofs.Text.Trim
import DirectoryAccess.Token.Scan

/-!
# Where quoted runs end

The scanners count the backslashes in front of each quote, and a label is cut by a walk
that steps over what a backslash escapes.  Both stop at the quote that a walk finds which
carries from character to character whether the next one is escaped.
-/

namespace DirectoryAccess

namespace Text

theorem byteLength_append (s t : Text) : byteLength (s ++ t) = byteLength s + byteLength t := by
  induction s with
  | nil => rw [List.nil_append, byteLength, Nat.zero_add]
  | cons c s ih => rw [List.cons_append, byteLength, byteLength, ih, Nat.add_assoc]

theorem eq_nil_of_byteLength_append {s t : Text} (h : byteLength (s ++ t) = byteLength s) :
    t = [] := by
  have hlength := length_le_byteLength t
  rw [byteLength_append] at h
  exact List.eq_nil_of_length_eq_zero (by omega)

/-- The length in bytes tells the beginnings of a text apart. -/
theorem isPrefix_eq_of_byteLength {s t whole : Text} (hs : s <+: whole) (ht : t <+: whole)
    (h : byteLength s = byteLength t) : s = t := by
  rcases List.prefix_or_prefix_of_prefix hs ht with ⟨more, rfl⟩ | ⟨more, rfl⟩
  · rw [eq_nil_of_byteLength_append h.symm, List.append_nil]
  · rw [eq_nil_of_byteLength_append h, List.append_nil]

/--
The place in bytes of the first double quote that is not escaped, given whether the
first character is.
-/
def quotePlace? (escaped : Bool) : Text → Option Nat
  | [] => none
  | c :: cs =>
      if !escaped && c == '"' then some 0
      else (quotePlace? (!escaped && c == '\\') cs).map fun place => c.utf8Size + place

theorem quotePlace?_eq_none_iff {escaped : Bool} {t : Text} :
    quotePlace? escaped t = none ↔ quotesEscaped escaped t = true := by
  induction t generalizing escaped with
  | nil => simp [quotePlace?]
  | cons c cs ih =>
      rw [quotePlace?, quotesEscaped]
      cases escaped with
      | true => simpa using ih
      | false =>
          by_cases hquote : c = '"'
          · simp [hquote]
          · simpa [hquote] using ih

theorem quotePlace?_append_quote {escaped : Bool} {t : Text}
    (hquotes : quotesEscaped escaped t = true) (hescape : escaping escaped t = false)
    (rest : Text) : quotePlace? escaped (t ++ '"' :: rest) = some (byteLength t) := by
  induction t generalizing escaped with
  | nil =>
      rw [escaping_nil] at hescape
      rw [List.nil_append, quotePlace?, hescape]
      rfl
  | cons c cs ih =>
      rw [quotesEscaped, Bool.and_eq_true] at hquotes
      have hgoes : ¬(!escaped && c == '"') = true := by
        have hpassed := hquotes.1
        cases escaped <;> simp_all
      rw [List.cons_append, quotePlace?, if_neg hgoes, ih hquotes.2 hescape, byteLength]
      rfl

/-- The walk that carries the escape and the one that steps over it cut at the same place. -/
theorem quotePlace?_eq_map_cutQuote? (t : Text) :
    quotePlace? false t = (cutQuote? t).map fun parts => byteLength parts.1 := by
  cases hcut : cutQuote? t with
  | none => exact quotePlace?_eq_none_iff.2 (cutQuote?_eq_none_iff.1 hcut)
  | some parts =>
      obtain ⟨run, rest⟩ := parts
      obtain ⟨rfl, hquotes, hescape⟩ := cutQuote?_eq_some_iff.1 hcut
      exact quotePlace?_append_quote hquotes hescape rest

theorem closeRun?_eq_none_iff {t : Text} : closeRun? t = none ↔ quotePlace? false t = none := by
  rw [closeRun?_eq_cutQuote?, quotePlace?_eq_map_cutQuote?, Option.map_eq_none_iff]

/-- A run closes behind as many bytes as the walk has passed over. -/
theorem closeRun?_eq_some_iff {t run rest : Text} :
    closeRun? t = some (run, rest) ↔
      quotePlace? false t = some (byteLength run) ∧ t = run ++ '"' :: rest := by
  constructor
  · intro hclose
    rw [closeRun?_eq_cutQuote?] at hclose
    rw [quotePlace?_eq_map_cutQuote?, hclose]
    exact ⟨rfl, (cutQuote?_eq_some_iff.1 hclose).1⟩
  · rintro ⟨hplace, hsplit⟩
    rw [quotePlace?_eq_map_cutQuote?] at hplace
    obtain ⟨⟨front, behind⟩, hcut, hlength⟩ := Option.map_eq_some_iff.1 hplace
    have hfront : t = front ++ '"' :: behind := (cutQuote?_eq_some_iff.1 hcut).1
    have hsame : front = run :=
      isPrefix_eq_of_byteLength ⟨'"' :: behind, hfront.symm⟩ ⟨'"' :: rest, hsplit.symm⟩ hlength
    subst hsame
    rw [hsplit] at hfront
    obtain ⟨-, rfl⟩ := List.cons.inj (List.append_cancel_left hfront)
    rw [closeRun?_eq_cutQuote?, hcut]

end Text

theorem BindToken.read_quote_eq_token_iff {t run rest : Text} :
    read ('"' :: t) = .token ⟨.value true, run⟩ rest ↔ Text.closeRun? t = some (run, rest) := by
  rw [read]
  cases Text.closeRun? t <;> simp [Prod.ext_iff]

theorem BindToken.read_quote_eq_openQuote_iff {t : Text} :
    read ('"' :: t) = .openQuote t ↔ Text.closeRun? t = none := by
  rw [read]
  cases Text.closeRun? t <;> simp

theorem TargetToken.read_quote_eq_token_iff {t run rest : Text} :
    read ('"' :: t) = .token (.value run) rest ↔ Text.closeRun? t = some (run, rest) := by
  rw [read]
  cases Text.closeRun? t <;> simp [Prod.ext_iff]

theorem TargetToken.read_quote_eq_openQuote_iff {t : Text} :
    read ('"' :: t) = .openQuote t ↔ Text.closeRun? t = none := by
  rw [read]
  cases Text.closeRun? t <;> simp

/--
Behind a double quote both scanners read the text up to the place of the first quote that is not
escaped, and leave what is behind that quote; they find the value unterminated exactly if there is
no such place.  Labels are cut at the same place.
-/
theorem quotes_close_alike (t : Text) :
    (∀ run rest, BindToken.read ('"' :: t) = .token ⟨.value true, run⟩ rest ↔
      Text.quotePlace? false t = some (Text.byteLength run) ∧ t = run ++ '"' :: rest) ∧
    (BindToken.read ('"' :: t) = .openQuote t ↔ Text.quotePlace? false t = none) ∧
    (∀ run rest, TargetToken.read ('"' :: t) = .token (.value run) rest ↔
      Text.quotePlace? false t = some (Text.byteLength run) ∧ t = run ++ '"' :: rest) ∧
    (TargetToken.read ('"' :: t) = .openQuote t ↔ Text.quotePlace? false t = none) ∧
    Text.quotePlace? false t = (Text.cutQuote? t).map fun parts => Text.byteLength parts.1 := by
  refine ⟨fun run rest => ?_, ?_, fun run rest => ?_, ?_, Text.quotePlace?_eq_map_cutQuote? t⟩
  · rw [BindToken.read_quote_eq_token_iff, Text.closeRun?_eq_some_iff]
  · rw [BindToken.read_quote_eq_openQuote_iff, Text.closeRun?_eq_none_iff]
  · rw [TargetToken.read_quote_eq_token_iff, Text.closeRun?_eq_some_iff]
  · rw [TargetToken.read_quote_eq_openQuote_iff, Text.closeRun?_eq_none_iff]

end DirectoryAccess
