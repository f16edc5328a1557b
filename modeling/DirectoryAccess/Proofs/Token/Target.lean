import DirectoryAccess.Proofs.Token.Scan

/-!
# Scanning target rules

One equation for each kind of token of a target rule, and what the tokens of a
text are made of: its operators are equality and its negation, and its quoted
values stand in the text and are closed.
-/

namespace DirectoryAccess

namespace TargetToken

theorem scan_openParen (t : Text) :
    reader.scan ('(' :: t) = (reader.scan t).map (.openParen :: ·) :=
  reader.scan_token (by decide) rfl

theorem scan_closeParen (t : Text) :
    reader.scan (')' :: t) = (reader.scan t).map (.closeParen :: ·) :=
  reader.scan_token (by decide) rfl

theorem scan_bars (t : Text) :
    reader.scan (" || ".toList ++ t) = (reader.scan t).map (.bars :: ·) := by
  have hbars : reader.scan ('|' :: '|' :: ' ' :: t) =
      (reader.scan (' ' :: t)).map (.bars :: ·) := reader.scan_token (by decide) rfl
  refine (reader.scan_separator (by decide) _).trans (hbars.trans ?_)
  rw [reader.scan_separator (by decide)]

theorem scan_quote {run rest t : Text} (h : Text.closeRun? t = some (run, rest)) :
    reader.scan ('"' :: t) = (reader.scan rest).map (.value run :: ·) :=
  reader.scan_token (by decide) (by simp [reader, read, h])

theorem scan_openQuote {t : Text} (h : Text.closeRun? t = none) :
    reader.scan ('"' :: t) = .error (.openQuote t) :=
  reader.scan_openQuote (by decide) (by simp [reader, read, h])

/-- The operators that a target rule knows. -/
def isKnown (op : Operator) : Bool :=
  op == .eq || op == .ne

theorem scan_operator {op : Operator} (hop : isKnown op = true) (t : Text) :
    reader.scan (op.symbol ++ ' ' :: t) = (reader.scan t).map (.operator op :: ·) := by
  have hsymbol : reader.scan (op.symbol ++ ' ' :: t) =
      (reader.scan (' ' :: t)).map (.operator op :: ·) := by
    cases op with
    | eq => exact reader.scan_token (by decide) rfl
    | ne => exact reader.scan_token (by decide) rfl
    | _ => cases hop
  rw [hsymbol, reader.scan_separator (by decide)]

theorem read_keyword {c : Char} {word rest : Text}
    (hword : ∀ d ∈ c :: word, isKeywordChar d = true)
    (hrest : ∀ d ∈ rest.head?, isKeywordChar d = false) :
    read (c :: word ++ rest) = .token (.keyword (c :: word)) rest := by
  have hrun := Text.run?_eq_some_iff.2 ⟨rfl, List.cons_ne_nil c word, hword, hrest⟩
  have hc := hword c (by simp)
  rw [List.cons_append] at hrun ⊢
  unfold read
  split
  case h_7 => rw [hrun]
  all_goals
    rename_i heq
    obtain ⟨rfl, -⟩ := List.cons.inj heq
    exact absurd hc (by decide)

theorem scan_keyword {word rest : Text} (hne : word ≠ [])
    (hword : ∀ d ∈ word, isKeywordChar d = true)
    (hrest : ∀ d ∈ rest.head?, isKeywordChar d = false) :
    reader.scan (word ++ rest) = (reader.scan rest).map (.keyword word :: ·) := by
  cases word with
  | nil => exact absurd rfl hne
  | cons c word =>
      have hc : Text.isSeparator c = false := by
        have hc := hword c (by simp)
        by_contra hsep
        simp only [Text.isSeparator, Bool.not_eq_false, Bool.or_eq_true, beq_iff_eq] at hsep
        rcases hsep with ((rfl | rfl) | rfl) | rfl <;> exact absurd hc (by decide)
      exact reader.scan_token hc (read_keyword hword hrest)

/-- The token takes the text up to the rest. -/
inductive Takes : Text → TargetToken → Text → Prop where
  | openParen (rest : Text) : Takes ('(' :: rest) .openParen rest
  | closeParen (rest : Text) : Takes (')' :: rest) .closeParen rest
  | operator {op : Operator} (hop : isKnown op = true) (rest : Text) :
      Takes (op.symbol ++ rest) (.operator op) rest
  | bars (rest : Text) : Takes ('|' :: '|' :: rest) .bars rest
  | value {run : Text} (hrun : run.isClosed = true) (rest : Text) :
      Takes ('"' :: (run ++ '"' :: rest)) (.value run) rest
  | keyword {word rest : Text} (hne : word ≠ []) (hword : ∀ c ∈ word, isKeywordChar c = true)
      (hrest : ∀ c ∈ rest.head?, isKeywordChar c = false) :
      Takes (word ++ rest) (.keyword word) rest

/-- What is found at the front of a text, with all that it tells of the text. -/
inductive Finds : Text → Reading TargetToken → Prop where
  | token {t rest : Text} {token : TargetToken} (htakes : Takes t token rest) :
      Finds t (.token token rest)
  | openQuote {run : Text} (hrun : Text.closeRun? run = none) :
      Finds ('"' :: run) (.openQuote run)
  | nothing {t : Text} (hhead : ∀ c ∈ t.head?, isKeywordChar c = false) : Finds t .nothing

theorem finds_read (t : Text) : Finds t (read t) := by
  unfold read
  split
  case h_1 rest => exact .token (.openParen rest)
  case h_2 rest => exact .token (.closeParen rest)
  case h_3 rest => exact .token (@Takes.operator .ne rfl rest)
  case h_4 rest => exact .token (@Takes.operator .eq rfl rest)
  case h_5 rest => exact .token (.bars rest)
  case h_6 run =>
    cases hclose : Text.closeRun? run with
    | none => exact .openQuote hclose
    | some parts =>
        obtain ⟨value, rest⟩ := parts
        obtain ⟨rfl, hclosed⟩ := Text.isClosed_of_closeRun? hclose
        exact .token (.value hclosed rest)
  case h_7 =>
    cases hrun : Text.run? isKeywordChar t with
    | none => exact .nothing (Text.head?_of_run?_eq_none hrun)
    | some parts =>
        obtain ⟨word, rest⟩ := parts
        obtain ⟨rfl, hne, hword, hrest⟩ := Text.run?_eq_some_iff.1 hrun
        exact .token (.keyword hne hword hrest)

theorem takes_of_read {t rest : Text} {token : TargetToken} (h : read t = .token token rest) :
    Takes t token rest := by
  have hfinds := finds_read t
  rw [h] at hfinds
  cases hfinds with
  | token htakes => exact htakes

theorem eq_of_read_openQuote {t fragment : Text} (h : read t = .openQuote fragment) :
    t = '"' :: fragment := by
  have hfinds := finds_read t
  rw [h] at hfinds
  cases hfinds with
  | openQuote => rfl

theorem cons_closeParen_of_read {t rest : Text} (h : read t = .token .closeParen rest) :
    t = ')' :: rest := by
  cases takes_of_read h with
  | closeParen => rfl

theorem cons_bars_of_read {t rest : Text} (h : read t = .token .bars rest) :
    t = '|' :: '|' :: rest := by
  cases takes_of_read h with
  | bars => rfl

theorem tokens_eq_ok_iff {t : Text} {ts : List TargetToken} :
    tokens t = .ok ts ↔ reader.scan t = .ok ts := by
  unfold tokens
  split <;> simp_all

/-- The token is one of those that a text can have. -/
def IsFrom (t : Text) : TargetToken → Prop
  | .operator op => isKnown op = true
  | .value v => v <:+: t ∧ v.isClosed = true
  | _ => True

theorem IsFrom.of_isSuffix {s t : Text} (h : s <:+ t) {token : TargetToken}
    (hs : token.IsFrom s) : token.IsFrom t := by
  cases token with
  | value v => exact ⟨hs.1.trans h.isInfix, hs.2⟩
  | _ => exact hs

/-- A token is from the text that it is read from, and what follows is the end of the text. -/
theorem Takes.isFrom {t rest : Text} {token : TargetToken} (h : Takes t token rest) :
    token.IsFrom t ∧ rest <:+ t := by
  cases h with
  | openParen => exact ⟨trivial, List.suffix_cons _ _⟩
  | closeParen => exact ⟨trivial, List.suffix_cons _ _⟩
  | operator hop => exact ⟨hop, List.suffix_append _ _⟩
  | bars => exact ⟨trivial, (List.suffix_cons _ _).trans (List.suffix_cons _ _)⟩
  | @value run hrun =>
      have hinside : run <:+: '"' :: (run ++ '"' :: rest) :=
        (List.prefix_append _ _).isInfix.trans (List.suffix_cons _ _).isInfix
      have hbehind : rest <:+ '"' :: (run ++ '"' :: rest) :=
        (List.suffix_cons _ _).trans ((List.suffix_append _ _).trans (List.suffix_cons _ _))
      exact ⟨⟨hinside, hrun⟩, hbehind⟩
  | keyword => exact ⟨trivial, List.suffix_append _ _⟩

theorem isFrom_of_scan {t : Text} {ts : List TargetToken} (h : reader.scan t = .ok ts) :
    ∀ token ∈ ts, token.IsFrom t := by
  refine reader.scan_induction (motive := fun t ts => ∀ token ∈ ts, token.IsFrom t) ?_ ?_ h
  · intro t _ token hmem
    cases hmem
  · intro t found rest ts hread ih token hmem
    have hskip : Text.skipSeparators t <:+ t := List.dropWhile_suffix _
    obtain ⟨hfound, hrest⟩ := (takes_of_read hread).isFrom
    rcases List.mem_cons.1 hmem with rfl | hmem
    · exact hfound.of_isSuffix hskip
    · exact (ih token hmem).of_isSuffix (hrest.trans hskip)

end TargetToken

end DirectoryAccess
