import DirectoryAccess.Proofs.Outcome
import DirectoryAccess.Proofs.Run
import DirectoryAccess.Proofs.Text.Measure
import DirectoryAccess.Proofs.Text.Trim
import DirectoryAccess.Token.Scan

/-!
# What scanning leaves

One equation for each kind of token: scanning a text that starts with the token
is scanning what follows, with the token in front.  Each token tells where it
ends, a word or an operator by the character behind it.
-/

namespace DirectoryAccess

namespace TokenReader

variable {τ : Type} (r : TokenReader τ)

theorem scan_nil : r.scan [] = .ok [] := by
  rw [scan]
  rfl

theorem skipSeparators_cons {c : Char} (hc : Text.isSeparator c = false) (t : Text) :
    Text.skipSeparators (c :: t) = c :: t := by
  simp [Text.skipSeparators, hc]

theorem scan_separator {c : Char} (hc : Text.isSeparator c = true) (t : Text) :
    r.scan (c :: t) = r.scan t := by
  have hskip : Text.skipSeparators (c :: t) = Text.skipSeparators t := by
    simp [Text.skipSeparators, hc]
  rw [scan, hskip, ← scan]

theorem scan_separators_append {s : Text} (hs : ∀ c ∈ s, Text.isSeparator c = true) (t : Text) :
    r.scan (s ++ t) = r.scan t := by
  induction s with
  | nil => rfl
  | cons c s ih =>
      rw [List.cons_append, r.scan_separator (hs c (by simp)),
        ih fun d hd => hs d (List.mem_cons_of_mem c hd)]

theorem scan_separators {s : Text} (hs : ∀ c ∈ s, Text.isSeparator c = true) :
    r.scan s = .ok [] := by
  have hscan := r.scan_separators_append hs []
  rwa [List.append_nil, r.scan_nil] at hscan

theorem scan_token {c : Char} {t rest : Text} {token : τ} (hc : Text.isSeparator c = false)
    (hread : r.read (c :: t) = .token token rest) :
    r.scan (c :: t) = (r.scan rest).map (token :: ·) := by
  rw [scan, skipSeparators_cons hc]
  simp only [List.isEmpty_cons, Bool.false_eq_true, if_false]
  split
  · rename_i token' rest' heq
    rw [hread] at heq
    cases heq
    rfl
  · rename_i heq
    rw [hread] at heq
    cases heq
  · rename_i heq
    rw [hread] at heq
    cases heq

theorem scan_openQuote {c : Char} {t fragment : Text} (hc : Text.isSeparator c = false)
    (hread : r.read (c :: t) = .openQuote fragment) :
    r.scan (c :: t) = .error (.openQuote fragment) := by
  rw [scan, skipSeparators_cons hc]
  simp only [List.isEmpty_cons, Bool.false_eq_true, if_false]
  split <;> rename_i heq <;> rw [hread] at heq <;> cases heq
  rfl

/-- A text that can be scanned starts with a token, unless it starts with a separator. -/
theorem exists_of_scan_cons {c : Char} {t : Text} {ts : List τ} (hc : Text.isSeparator c = false)
    (h : r.scan (c :: t) = .ok ts) :
    ∃ token rest us, r.read (c :: t) = .token token rest ∧ r.scan rest = .ok us ∧
      ts = token :: us := by
  cases hread : r.read (c :: t) with
  | token token rest =>
      rw [r.scan_token hc hread] at h
      obtain ⟨us, hus, rfl⟩ := Outcome.map_eq_ok.1 h
      exact ⟨token, rest, us, rfl, hus, rfl⟩
  | openQuote fragment =>
      rw [r.scan_openQuote hc hread] at h
      cases h
  | nothing =>
      rw [scan, skipSeparators_cons hc] at h
      simp only [List.isEmpty_cons, Bool.false_eq_true, if_false] at h
      split at h <;> rename_i heq <;> rw [hread] at heq <;> cases heq
      cases h

/-- What holds of every text that is scanned, by induction on the tokens found. -/
theorem scan_induction {motive : Text → List τ → Prop}
    (nil : ∀ t, Text.skipSeparators t = [] → motive t [])
    (token : ∀ t found rest ts, r.read (Text.skipSeparators t) = .token found rest →
      motive rest ts → motive t (found :: ts))
    {t : Text} {ts : List τ} (h : r.scan t = .ok ts) : motive t ts := by
  fun_induction r.scan t generalizing ts with
  | case1 t next =>
      rename_i hnext
      cases h
      exact nil _ (List.isEmpty_iff.1 hnext)
  | case2 t next hnext found rest hread =>
      rename_i ih
      obtain ⟨us, hus, rfl⟩ := Outcome.map_eq_ok.1 h
      exact token _ found rest us hread (ih hus)
  | case3 => cases h
  | case4 => cases h

end TokenReader

namespace Text

theorem run?_eq_some_iff {inClass : Char → Bool} {t word rest : Text} :
    run? inClass t = some (word, rest) ↔
      t = word ++ rest ∧ word ≠ [] ∧ (∀ c ∈ word, inClass c = true) ∧
        ∀ c ∈ rest.head?, inClass c = false := by
  rw [run?]
  constructor
  · intro h
    split at h
    · cases h
    · rename_i hne
      cases h
      exact ⟨List.takeWhile_append_dropWhile.symm, by simpa using hne,
        fun c hc => List.mem_takeWhile_imp hc, Run.head?_dropWhile inClass t⟩
  · rintro ⟨rfl, hne, hword, hrest⟩
    simp [Run.takeWhile_append hword hrest, Run.dropWhile_append hword hrest, hne]

theorem head?_of_run?_eq_none {inClass : Char → Bool} {t : Text} (h : run? inClass t = none) :
    ∀ c ∈ t.head?, inClass c = false := by
  intro c hc
  obtain ⟨cs, rfl⟩ := List.head?_eq_some_iff.1 hc
  by_contra hclass
  simp [run?, hclass] at h

end Text

namespace Operator

/-- Only these operators are made longer by an equals sign. -/
def isOpen (op : Operator) : Bool :=
  op == .lt || op == .gt

theorem symbol_append_of_read? {t rest : Text} {op : Operator} (h : read? t = some (op, rest)) :
    t = op.symbol ++ rest := by
  unfold read? at h
  split at h <;> simp only [Option.some.injEq, Prod.mk.injEq, reduceCtorEq] at h <;>
    (obtain ⟨rfl, rfl⟩ := h; rfl)

theorem head?_ne_of_read? {t rest : Text} {op : Operator} (h : read? t = some (op, rest))
    (hopen : op.isOpen = true) : rest.head? ≠ some '=' := by
  intro hhead
  obtain ⟨u, rfl⟩ := List.head?_eq_some_iff.1 hhead
  have ht := symbol_append_of_read? h
  cases op with
  | lt | gt =>
      rw [ht] at h
      cases h
  | _ => cases hopen

end Operator

/-- Holds for what a word without quotes can stand for. -/
def BindTokenKind.isWord : BindTokenKind → Bool
  | and => true
  | or => true
  | not => true
  | value false => true
  | _ => false

namespace BindToken

theorem scan_openParen (t : Text) :
    reader.scan ('(' :: t) = (reader.scan t).map (⟨.openParen, ['(']⟩ :: ·) :=
  reader.scan_token (by decide) rfl

theorem scan_closeParen (t : Text) :
    reader.scan (')' :: t) = (reader.scan t).map (⟨.closeParen, [')']⟩ :: ·) :=
  reader.scan_token (by decide) rfl

theorem scan_quote {run rest : Text} {t : Text} (h : Text.closeRun? t = some (run, rest)) :
    reader.scan ('"' :: t) = (reader.scan rest).map (⟨.value true, run⟩ :: ·) :=
  reader.scan_token (by decide) (by simp [reader, read, h])

theorem scan_openQuote {t : Text} (h : Text.closeRun? t = none) :
    reader.scan ('"' :: t) = .error (.openQuote t) :=
  reader.scan_openQuote (by decide) (by simp [reader, read, h])

theorem scan_operator (op : Operator) (t : Text) :
    reader.scan (op.symbol ++ ' ' :: t) =
      (reader.scan (' ' :: t)).map (⟨.operator op, op.symbol⟩ :: ·) := by
  cases op <;> exact reader.scan_token (by decide) rfl

theorem isBlank_of_isBareChar {c : Char} (h : isBareChar c = true) : Text.isBlank c = false := by
  simp only [isBareChar, Bool.not_eq_true', Bool.or_eq_false_iff] at h
  exact h.1.1.1.1.1.1.1

theorem isSeparator_of_isBareChar {c : Char} (h : isBareChar c = true) :
    Text.isSeparator c = false :=
  Text.isSeparator_of_isBlank_eq_false (isBlank_of_isBareChar h)

/-- No character of a word opens another kind of token. -/
theorem ne_of_isBareChar {c : Char} (h : isBareChar c = true) :
    c ≠ '(' ∧ c ≠ ')' ∧ c ≠ '"' ∧ c ≠ '=' ∧ c ≠ '!' ∧ c ≠ '<' ∧ c ≠ '>' := by
  simp only [isBareChar, Bool.not_eq_true', Bool.or_eq_false_iff, beq_eq_false_iff_ne] at h
  obtain ⟨⟨⟨⟨⟨⟨⟨-, h1⟩, h2⟩, h3⟩, h4⟩, h5⟩, h6⟩, h7⟩ := h
  exact ⟨h1, h2, h3, h4, h5, h6, h7⟩

theorem read?_cons_eq_none {c : Char} (h : isBareChar c = true) (t : Text) :
    Operator.read? (c :: t) = none := by
  obtain ⟨-, -, -, h4, h5, h6, h7⟩ := ne_of_isBareChar h
  unfold Operator.read?
  split <;> simp_all

theorem read_word {word rest : Text} (hne : word ≠ [])
    (hword : ∀ c ∈ word, isBareChar c = true) (hrest : ∀ c ∈ rest.head?, isBareChar c = false) :
    read (word ++ rest) = .token ⟨kindOfWord word, word⟩ rest := by
  have hrun := Text.run?_eq_some_iff.2 ⟨rfl, hne, hword, hrest⟩
  cases word with
  | nil => exact absurd rfl hne
  | cons c cs =>
      have hc := hword c (by simp)
      obtain ⟨h1, h2, h3, -⟩ := ne_of_isBareChar hc
      rw [List.cons_append] at hrun ⊢
      rw [read]
      · rw [read?_cons_eq_none hc, readWord, hrun]
      all_goals simp_all

theorem scan_word {word rest : Text} (hne : word ≠ [])
    (hword : ∀ c ∈ word, isBareChar c = true) (hrest : ∀ c ∈ rest.head?, isBareChar c = false) :
    reader.scan (word ++ rest) = (reader.scan rest).map (⟨kindOfWord word, word⟩ :: ·) := by
  cases word with
  | nil => exact absurd rfl hne
  | cons c cs =>
      have hc := isSeparator_of_isBareChar (hword c (by simp))
      exact reader.scan_token hc (read_word hne hword hrest)

/-- The token takes the text up to the rest. -/
inductive Takes : Text → BindToken → Text → Prop where
  | openParen (rest : Text) : Takes ('(' :: rest) ⟨.openParen, ['(']⟩ rest
  | closeParen (rest : Text) : Takes (')' :: rest) ⟨.closeParen, [')']⟩ rest
  | quoted {run : Text} (hrun : run.isClosed = true) (rest : Text) :
      Takes ('"' :: (run ++ '"' :: rest)) ⟨.value true, run⟩ rest
  | operator (op : Operator) (rest : Text) : Takes (op.symbol ++ rest) ⟨.operator op, op.symbol⟩ rest
  | word {word : Text} (hne : word ≠ []) (hword : ∀ c ∈ word, isBareChar c = true) (rest : Text) :
      Takes (word ++ rest) ⟨kindOfWord word, word⟩ rest

theorem kindOfWord_ne_operator (word : Text) (op : Operator) : kindOfWord word ≠ .operator op := by
  simp only [kindOfWord]
  split
  · simp
  · split
    · simp
    · split <;> simp

/-- The text does not go on with the token in front of it. -/
structure Ends (token : BindToken) (rest : Text) : Prop where
  operator : ∀ op, token.kind = .operator op → op.isOpen = true → rest.head? ≠ some '='
  word : token.kind.isWord = true → ∀ c ∈ rest.head?, isBareChar c = false

/-- What is found at the front of a text, with all that it tells of the text. -/
inductive Finds : Text → Reading BindToken → Prop where
  | token {t rest : Text} {token : BindToken} (htakes : Takes t token rest)
      (hends : token.Ends rest) : Finds t (.token token rest)
  | openQuote {run : Text} (hrun : Text.quotesEscaped false run = true) :
      Finds ('"' :: run) (.openQuote run)
  | nothing {t : Text} (hop : Operator.read? t = none)
      (hhead : ∀ c ∈ t.head?, c ≠ '(' ∧ c ≠ ')' ∧ c ≠ '"' ∧ isBareChar c = false) :
      Finds t .nothing

theorem finds_readWord {t : Text} (hop : Operator.read? t = none)
    (hhead : ∀ c ∈ t.head?, c ≠ '(' ∧ c ≠ ')' ∧ c ≠ '"') : Finds t (readWord t) := by
  rw [readWord]
  cases hrun : Text.run? isBareChar t with
  | none =>
      refine .nothing hop fun c hc => ?_
      obtain ⟨hopen, hclose, hquote⟩ := hhead c hc
      exact ⟨hopen, hclose, hquote, Text.head?_of_run?_eq_none hrun c hc⟩
  | some parts =>
      obtain ⟨word, rest⟩ := parts
      obtain ⟨rfl, hne, hword, hrest⟩ := Text.run?_eq_some_iff.1 hrun
      exact .token (.word hne hword rest)
        ⟨fun op hkind => absurd hkind (kindOfWord_ne_operator word op), fun _ => hrest⟩

theorem finds_read (t : Text) : Finds t (read t) := by
  unfold read
  split
  case h_1 rest => exact .token (.openParen rest) ⟨by simp, by simp [BindTokenKind.isWord]⟩
  case h_2 rest => exact .token (.closeParen rest) ⟨by simp, by simp [BindTokenKind.isWord]⟩
  case h_3 run =>
    cases hclose : Text.closeRun? run with
    | none =>
        rw [Text.closeRun?_eq_cutQuote?, Text.cutQuote?_eq_none_iff] at hclose
        exact .openQuote hclose
    | some parts =>
        obtain ⟨value, rest⟩ := parts
        obtain ⟨rfl, hclosed⟩ := Text.isClosed_of_closeRun? hclose
        exact .token (.quoted hclosed rest) ⟨by simp, by simp [BindTokenKind.isWord]⟩
  case h_4 hopen hclose hquote =>
    cases hop : Operator.read? t with
    | none =>
        refine finds_readWord hop fun c hc => ?_
        obtain ⟨cs, rfl⟩ := List.head?_eq_some_iff.1 hc
        exact ⟨fun h => hopen cs (by rw [h]), fun h => hclose cs (by rw [h]),
          fun h => hquote cs (by rw [h])⟩
    | some parts =>
        obtain ⟨op, rest⟩ := parts
        have hends : Ends ⟨.operator op, op.symbol⟩ rest := by
          refine ⟨fun op' hkind hlonger => ?_, by simp [BindTokenKind.isWord]⟩
          cases hkind
          exact Operator.head?_ne_of_read? hop hlonger
        have htakes := Takes.operator op rest
        rw [← Operator.symbol_append_of_read? hop] at htakes
        exact .token htakes hends

section Read

variable {t rest : Text} {token : BindToken}

theorem takes_of_read (h : read t = .token token rest) : Takes t token rest := by
  have hfinds := finds_read t
  rw [h] at hfinds
  cases hfinds with
  | token htakes => exact htakes

theorem ends_of_read (h : read t = .token token rest) : token.Ends rest := by
  have hfinds := finds_read t
  rw [h] at hfinds
  cases hfinds with
  | token htakes hends => exact hends

theorem eq_of_read_openQuote {fragment : Text} (h : read t = .openQuote fragment) :
    t = '"' :: fragment ∧ Text.quotesEscaped false fragment = true := by
  have hfinds := finds_read t
  rw [h] at hfinds
  cases hfinds with
  | openQuote hrun => exact ⟨rfl, hrun⟩

end Read

theorem isPlain_of_isSeparator {c : Char} (h : Text.isSeparator c = true) :
    Text.isPlain c = true := by
  simp only [Text.isSeparator, Bool.or_eq_true, beq_iff_eq] at h
  rcases h with ((rfl | rfl) | rfl) | rfl <;> rfl

theorem comparisons_skipSeparators (t : Text) :
    Text.comparisons (Text.skipSeparators t) = Text.comparisons t := by
  induction t with
  | nil => rfl
  | cons c cs ih =>
      cases hc : Text.isSeparator c with
      | true =>
          rw [← Text.comparisons_isMeasure.cons (isPlain_of_isSeparator hc) cs] at ih
          rw [← ih, Text.skipSeparators, Text.skipSeparators, List.dropWhile_cons_of_pos hc]
      | false => rw [Text.skipSeparators, List.dropWhile_cons_of_neg (by simp [hc])]

theorem Takes.comparisons {t rest : Text} {token : BindToken} (h : Takes t token rest) :
    Text.comparisons t = Text.comparisons token.text + Text.comparisons rest := by
  cases h <;> simp [Text.comparisons, Text.isComparison]

/-- An operator is spelled by its symbol, and no token has an open quote. -/
structure IsSpelled (t : BindToken) : Prop where
  operator : ∀ op, t.kind = .operator op → t.text = op.symbol
  quotes : Text.quotesEscaped false t.text = true

theorem Takes.isSpelled {t rest : Text} {token : BindToken} (h : Takes t token rest) :
    token.IsSpelled := by
  cases h with
  | openParen => exact ⟨by simp, rfl⟩
  | closeParen => exact ⟨by simp, rfl⟩
  | quoted hrun => exact ⟨by simp, (Text.isClosed_iff.1 hrun).1⟩
  | operator op => exact ⟨by simp, by cases op <;> rfl⟩
  | @word word hne hword =>
      refine ⟨fun op hop => absurd hop (kindOfWord_ne_operator word op), ?_⟩
      refine Text.quotesEscaped_of_not_mem (fun hmem => ?_) false
      exact (ne_of_isBareChar (hword _ hmem)).2.2.1 rfl

/-- Scanning loses no comparison. -/
theorem comparisons_of_scan {t : Text} {ts : List BindToken} (h : reader.scan t = .ok ts) :
    (ts.map fun token => Text.comparisons token.text).sum = Text.comparisons t := by
  refine reader.scan_induction (motive := fun t ts =>
    (ts.map fun token => Text.comparisons token.text).sum = Text.comparisons t) ?_ ?_ h
  · intro t ht
    rw [← comparisons_skipSeparators, ht]
    rfl
  · intro t found rest ts hread ih
    rw [List.map_cons, List.sum_cons, ih, ← comparisons_skipSeparators t,
      (takes_of_read hread).comparisons]

theorem isSpelled_of_scan {t : Text} {ts : List BindToken} (h : reader.scan t = .ok ts) :
    ∀ token ∈ ts, token.IsSpelled := by
  refine reader.scan_induction (motive := fun _ ts => ∀ token ∈ ts, token.IsSpelled) ?_ ?_ h
  · intro t ht token hmem
    cases hmem
  · intro t found rest ts hread ih token hmem
    rcases List.mem_cons.1 hmem with rfl | hmem
    · exact (takes_of_read hread).isSpelled
    · exact ih token hmem

theorem joinNots_induction {motive : List BindToken → List BindToken → Prop} (nil : motive [] [])
    (joined : ∀ a n ts us, a.kind = .and → n.kind = .not → motive ts us →
      motive (a :: n :: ts) (⟨.andNot, a.text ++ ' ' :: n.text⟩ :: us))
    (apart : ∀ t ts us, motive ts us → motive (t :: ts) (t :: us)) (ts : List BindToken) :
    motive ts (joinNots ts) := by
  fun_induction joinNots ts with
  | case1 a n rest hkinds ih =>
      simp only [Bool.and_eq_true, decide_eq_true_eq] at hkinds
      exact joined a n rest _ hkinds.1 hkinds.2 ih
  | case2 a n rest hkinds ih => exact apart a (n :: rest) _ ih
  | case3 ts hno =>
      match ts with
      | [] => exact nil
      | [t] => exact apart t [] [] nil
      | a :: n :: rest => exact absurd rfl (hno a n rest)

theorem comparisons_joinNots (ts : List BindToken) :
    ((joinNots ts).map fun token => Text.comparisons token.text).sum =
      (ts.map fun token => Text.comparisons token.text).sum := by
  refine joinNots_induction (motive := fun ts us =>
    (us.map fun token => Text.comparisons token.text).sum =
      (ts.map fun token => Text.comparisons token.text).sum) rfl ?_ ?_ ts
  · intro a n ts us _ _ ih
    simp only [List.map_cons, List.sum_cons, ih,
      Text.comparisons_isMeasure.parted (show Text.isPlain ' ' = true by decide), Nat.add_assoc]
  · intro t ts us ih
    rw [List.map_cons, List.map_cons, List.sum_cons, List.sum_cons, ih]

theorem isSpelled_joinNots {ts : List BindToken} (h : ∀ token ∈ ts, token.IsSpelled) :
    ∀ token ∈ joinNots ts, token.IsSpelled := by
  revert h
  refine joinNots_induction (motive := fun ts us =>
    (∀ token ∈ ts, token.IsSpelled) → ∀ token ∈ us, token.IsSpelled) (fun h => h) ?_ ?_ ts
  · intro a n ts us _ _ ih h token hmem
    rcases List.mem_cons.1 hmem with rfl | hmem
    · refine ⟨by simp, ?_⟩
      rw [Text.quotesEscaped_append_cons (by decide) (by decide), (h a (by simp)).quotes,
        (h n (by simp)).quotes]
      rfl
    · exact ih (fun u hu => h u (by simp [hu])) token hmem
  · intro t ts us ih h token hmem
    rcases List.mem_cons.1 hmem with rfl | hmem
    · exact h token (by simp)
    · exact ih (fun u hu => h u (by simp [hu])) token hmem

theorem tokens_eq_ok_iff {t : Text} {ts : List BindToken} :
    tokens t = .ok ts ↔
      ∃ found, reader.scan t = .ok found ∧ joinNots found = ts ∧ ∀ token ∈ ts, token.text ≠ [] := by
  unfold tokens
  split
  · rename_i hscan
    simp [hscan]
  · rename_i found hscan
    simp only
    split
    · rename_i token hfind
      have hempty := List.find?_some hfind
      have hmem := List.mem_of_find?_eq_some hfind
      simp only [reduceCtorEq, hscan, Except.ok.injEq, false_iff, not_exists]
      rintro _ ⟨rfl, rfl, hall⟩
      exact hall token hmem (List.isEmpty_iff.1 hempty)
    · rename_i hfind
      rw [List.find?_eq_none] at hfind
      simp only [Except.ok.injEq, hscan]
      constructor
      · rintro rfl
        exact ⟨found, rfl, rfl, by simpa using hfind⟩
      · rintro ⟨_, rfl, rfl, -⟩
        rfl

end BindToken

end DirectoryAccess
