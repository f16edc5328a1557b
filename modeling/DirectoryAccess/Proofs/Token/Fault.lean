import DirectoryAccess.Proofs.Token.Spelling

/-!
# Where scanning fails

A bind rule cannot be scanned exactly if reading it from left to right, with each quoted
run read as one, comes to a place where nothing can be read.  Scanning stops at the first
such place, so what stands in front of it is scanned.  A run without text is scanned too,
and refused once all tokens are known.
-/

namespace DirectoryAccess

theorem Operator.ne_of_read?_eq_none {c : Char} {t : Text} (h : read? (c :: t) = none) :
    c ≠ '=' ∧ c ≠ '<' ∧ c ≠ '>' ∧ (c = '!' → t.head? ≠ some '=') := by
  refine ⟨?_, ?_, ?_, ?_⟩
  · rintro rfl
    cases h
  · rintro rfl
    unfold read? at h
    split at h <;> simp_all
  · rintro rfl
    unfold read? at h
    split at h <;> simp_all
  · rintro rfl hhead
    obtain ⟨u, rfl⟩ := List.head?_eq_some_iff.1 hhead
    cases h

theorem Place.ofFragment_append (before fragment : Text) :
    Place.ofFragment (before ++ fragment) fragment = ⟨before, fragment⟩ := by
  simp [Place.ofFragment]

/-- The characters behind the last line feed of a text, or all of them if it has none. -/
inductive Text.IsLastLine : Text → Text → Prop where
  | whole {last : Text} (hlast : '\n' ∉ last) : IsLastLine last last
  | behind (above : Text) {last : Text} (hlast : '\n' ∉ last) :
      IsLastLine (above ++ '\n' :: last) last

theorem Text.IsLastLine.append_singleton {t last : Text} {c : Char} (h : IsLastLine t last)
    (hc : c ≠ '\n') : IsLastLine (t ++ [c]) (last ++ [c]) := by
  cases h with
  | whole hlast => exact .whole (by simp [hlast, Ne.symm hc])
  | behind above hlast =>
      rw [List.append_assoc, List.cons_append]
      exact .behind above (by simp [hlast, Ne.symm hc])

theorem Place.exists_isLastLine (p : Place) :
    ∃ last, Text.IsLastLine p.before last ∧ p.column = 1 + last.length := by
  obtain ⟨before, fragment⟩ := p
  rw [Place.column]
  induction before using List.reverseRecOn with
  | nil => exact ⟨[], .whole (by simp), rfl⟩
  | append_singleton t c ih =>
      obtain ⟨last, hlast, hcolumn⟩ := ih
      by_cases hc : c = '\n'
      · subst hc
        exact ⟨[], .behind t (by simp), by simp⟩
      · refine ⟨last ++ [c], hlast.append_singleton hc, ?_⟩
        have htake : (t ++ [c]).reverse.takeWhile (· != '\n') =
            c :: t.reverse.takeWhile (· != '\n') := by
          simp [hc]
        rw [htake, List.length_cons, ← Nat.add_assoc, hcolumn, List.length_append,
          List.length_singleton, Nat.add_assoc]

theorem Error.message_scan {fault : ScanFault} {p : Place} {context : String} {line column : Nat}
    (h : fault.message = p.message context) (hline : p.line = line) (hcolumn : p.column = column) :
    (Error.scan fault).message = "Lexical error when scanning `" ++
      (s!"Error scanning at line {line} at column {column}, " ++
        s!"when handling {context}, fragment {String.ofList p.fragment}") ++ "`" := by
  subst hline hcolumn
  have hplace : fault.message = s!"Error scanning at line {p.line} at column {p.column}, " ++
    s!"when handling {context}, fragment {String.ofList p.fragment}" := h
  calc (Error.scan fault).message
    _ = "Lexical error when scanning `" ++ fault.message ++ "`" := rfl
    _ = _ := by rw [hplace]

namespace BindToken

/-- Reading from left to right, with each quoted run read as one, comes to the rest. -/
inductive Reaches : Text → Text → Prop where
  | refl (t : Text) : Reaches t t
  | char {c : Char} {t rest : Text} (hc : c ≠ '"') (h : Reaches t rest) : Reaches (c :: t) rest
  | run {run t rest : Text} (hquotes : Text.quotesEscaped false run = true)
      (hescape : Text.escaping false run = false) (h : Reaches t rest) :
      Reaches ('"' :: (run ++ '"' :: t)) rest

/-- Text at whose front stands what no bind rule may hold outside quoted runs. -/
inductive Malformed : Text → Prop where
  | bang {rest : Text} (hrest : rest.head? ≠ some '=') : Malformed ('!' :: rest)
  | blank {c : Char} (hblank : Text.isBlank c = true) (hc : Text.isSeparator c = false)
      (rest : Text) : Malformed (c :: rest)
  | openRun {run : Text} (hrun : Text.quotesEscaped false run = true) : Malformed ('"' :: run)
  | emptyRun (rest : Text) : Malformed ('"' :: '"' :: rest)

def emptyRun : BindToken :=
  ⟨.value true, []⟩

/-! ## What is read at a place -/

theorem Takes.eq_emptyRun {t rest : Text} {token : BindToken} (h : Takes t token rest)
    (htext : token.text = []) : token = emptyRun := by
  cases h with
  | openParen => cases htext
  | closeParen => cases htext
  | quoted =>
      cases htext
      rfl
  | operator op => cases op <;> cases htext
  | word hne => exact absurd htext hne

/-- What the first character of a token tells of the rest of it. -/
theorem Takes.head {c : Char} {t rest : Text} {token : BindToken} (h : Takes (c :: t) token rest) :
    Text.isBlank c = false ∧ (c = '!' → t.head? = some '=') ∧
      (c = '"' → ∃ run, token = ⟨.value true, run⟩ ∧ t = run ++ '"' :: rest ∧
        run.isClosed = true) := by
  generalize hs : c :: t = s at h
  cases h with
  | openParen => cases hs; exact ⟨rfl, by simp, by simp⟩
  | closeParen => cases hs; exact ⟨rfl, by simp, by simp⟩
  | @quoted run hrun => cases hs; exact ⟨rfl, by simp, fun _ => ⟨run, rfl, rfl, hrun⟩⟩
  | operator op =>
      cases op <;>
        (simp only [Operator.symbol, String.reduceToList, List.cons_append, List.nil_append,
          List.cons.injEq] at hs
         obtain ⟨rfl, rfl⟩ := hs
         exact ⟨rfl, by simp, by simp⟩)
  | @word word hne hword =>
      cases word with
      | nil => exact absurd rfl hne
      | cons d word =>
          obtain ⟨rfl, -⟩ := List.cons.inj hs
          have hc := hword c (by simp)
          obtain ⟨-, -, hquote, -, hbang, -⟩ := ne_of_isBareChar hc
          exact ⟨isBlank_of_isBareChar hc, fun h => absurd h hbang, fun h => absurd h hquote⟩

/-- No token starts at a malformed place but a run without text. -/
theorem Takes.eq_emptyRun_of_malformed {t rest : Text} {token : BindToken} (h : Takes t token rest)
    (hmalformed : Malformed t) : token = emptyRun := by
  cases hmalformed with
  | bang hrest => exact absurd (h.head.2.1 rfl) hrest
  | blank hblank =>
      rw [h.head.1] at hblank
      cases hblank
  | openRun hrun =>
      obtain ⟨run, rfl, rfl, hclosed⟩ := h.head.2.2 rfl
      have hescape := (Text.isClosed_iff.1 hclosed).2
      simp [Text.quotesEscaped_append, Text.quotesEscaped, hescape] at hrun
  | emptyRun t =>
      obtain ⟨run, rfl, heq, hclosed⟩ := h.head.2.2 rfl
      cases run with
      | nil => rfl
      | cons d run =>
          obtain ⟨rfl, -⟩ := List.cons.inj heq
          have hquotes := (Text.isClosed_iff.1 hclosed).1
          simp [Text.quotesEscaped] at hquotes

theorem malformed_of_read_eq_nothing {c : Char} {t : Text} (hc : Text.isSeparator c = false)
    (h : read (c :: t) = .nothing) : Malformed (c :: t) ∧ c ≠ '"' := by
  have hfinds := finds_read (c :: t)
  rw [h] at hfinds
  cases hfinds with
  | nothing hop hhead =>
      obtain ⟨hopen, hclose, hquote, hbare⟩ := hhead c rfl
      obtain ⟨heq, hlt, hgt, hbang⟩ := Operator.ne_of_read?_eq_none hop
      refine ⟨?_, hquote⟩
      simp only [isBareChar, Bool.not_eq_false', Bool.or_eq_true, beq_iff_eq] at hbare
      rcases hbare with ((((((hblank | rfl) | rfl) | rfl) | rfl) | rfl) | rfl) | rfl
      · exact .blank hblank hc t
      · exact absurd rfl hopen
      · exact absurd rfl hclose
      · exact absurd rfl hquote
      · exact absurd rfl heq
      · exact .bang (hbang rfl)
      · exact absurd rfl hlt
      · exact absurd rfl hgt

/-! ## Where scanning stops -/

/-- What scanning stops at, and what it then reports. -/
inductive StopsAt : Text → Halt → Prop where
  | noToken {c : Char} {t : Text} (hmalformed : Malformed (c :: t)) (hc : c ≠ '"') :
      StopsAt (c :: t) (.noToken (c :: t))
  | openQuote {run : Text} (hrun : Text.quotesEscaped false run = true) :
      StopsAt ('"' :: run) (.openQuote run)

theorem StopsAt.malformed {t : Text} {halt : Halt} (h : StopsAt t halt) : Malformed t := by
  cases h with
  | noToken hmalformed => exact hmalformed
  | openQuote hrun => exact .openRun hrun

/-- What stands in front of the place where scanning stops is scanned. -/
theorem exists_stopsAt_of_scan_eq_error {t : Text} {halt : Halt} (h : reader.scan t = .error halt) :
    ∃ before stop found,
      t = before ++ stop ∧ reader.scan before = .ok found ∧ StopsAt stop halt := by
  fun_induction reader.scan t with
  | case1 t next hempty => cases h
  | case2 t next hempty token rest hread ih =>
      obtain ⟨before, stop, found, rfl, hbefore, hstop⟩ := ih (Outcome.map_eq_error.1 h)
      obtain ⟨gap, hsplit, hgap⟩ := Text.exists_separators_append t
      have htakes := takes_of_read hread
      refine ⟨gap ++ (token.spelling ++ before), stop, token :: found, ?_, ?_, hstop⟩
      · rw [List.append_assoc, List.append_assoc, ← htakes.eq_append]
        exact hsplit
      · -- What the token ends at is still behind it, or nothing is.
        have hends : token.Ends before := by
          refine (ends_of_read hread).of_head? fun c hc => Or.inl ?_
          rw [List.head?_append, Option.mem_def.1 hc]
          rfl
        rw [reader.scan_separators_append hgap, htakes.scan hends, hbefore]
        rfl
  | case3 t next hempty fragment hread =>
      cases h
      obtain ⟨gap, hsplit, hgap⟩ := Text.exists_separators_append t
      obtain ⟨heq, hrun⟩ := eq_of_read_openQuote hread
      exact ⟨gap, _, [], heq ▸ hsplit, reader.scan_separators hgap, .openQuote hrun⟩
  | case4 t next hempty hread =>
      cases h
      obtain ⟨gap, hsplit, hgap⟩ := Text.exists_separators_append t
      obtain ⟨c, u, heq⟩ := List.exists_cons_of_ne_nil (mt List.isEmpty_iff.2 hempty)
      have hc : Text.isSeparator c = false :=
        Run.head?_dropWhile Text.isSeparator t c (by rw [show t.dropWhile _ = c :: u from heq]; rfl)
      rw [show reader.read next = read next from rfl, heq] at hread
      obtain ⟨hmalformed, hquote⟩ := malformed_of_read_eq_nothing hc hread
      refine ⟨gap, next, [], hsplit, reader.scan_separators hgap, ?_⟩
      rw [heq]
      exact .noToken hmalformed hquote

/-! ## What is reached -/

theorem Reaches.chars {s t rest : Text} (hs : '"' ∉ s) (h : Reaches t rest) :
    Reaches (s ++ t) rest := by
  induction s with
  | nil => exact h
  | cons c s ih =>
      rw [List.mem_cons, not_or] at hs
      exact .char (Ne.symm hs.1) (ih hs.2)

theorem Takes.reaches {t rest u v : Text} {token : BindToken} (h : Takes t token rest)
    (hu : Reaches u v) : Reaches (token.spelling ++ u) v := by
  cases h with
  | openParen => exact .char (by decide) hu
  | closeParen => exact .char (by decide) hu
  | @quoted run hrun =>
      obtain ⟨hquotes, hescape⟩ := Text.isClosed_iff.1 hrun
      simpa [spelling, Text.quote] using Reaches.run hquotes hescape hu
  | operator op => exact hu.chars (by cases op <;> decide)
  | @word word hne hword =>
      rw [spelling_word]
      exact hu.chars fun hmem => (ne_of_isBareChar (hword _ hmem)).2.2.1 rfl

theorem Reaches.of_skipSeparators {t u rest : Text}
    (h : Reaches (Text.skipSeparators t ++ u) rest) : Reaches (t ++ u) rest := by
  obtain ⟨gap, hsplit, hgap⟩ := Text.exists_separators_append t
  have hquote : '"' ∉ gap := fun hmem => by cases hgap _ hmem
  rw [hsplit, List.append_assoc]
  exact h.chars hquote

/-- What is scanned completely is read over. -/
theorem reaches_of_scan {t : Text} {ts : List BindToken} (h : reader.scan t = .ok ts)
    (rest : Text) : Reaches (t ++ rest) rest := by
  refine reader.scan_induction (motive := fun t _ => Reaches (t ++ rest) rest) ?_ ?_ h
  · intro t ht
    apply Reaches.of_skipSeparators
    rw [ht]
    exact .refl rest
  · intro t found u ts hread ih
    have htakes := takes_of_read hread
    apply Reaches.of_skipSeparators
    rw [htakes.eq_append, List.append_assoc]
    exact htakes.reaches ih

/-! ## Runs without text -/

theorem eq_emptyRun_of_scan {t : Text} {ts : List BindToken} (h : reader.scan t = .ok ts) :
    ∀ token ∈ ts, token.text = [] → token = emptyRun := by
  refine reader.scan_induction
    (motive := fun _ ts => ∀ token ∈ ts, token.text = [] → token = emptyRun) ?_ ?_ h
  · intro t _ token hmem
    cases hmem
  · intro t found rest ts hread ih token hmem htext
    rcases List.mem_cons.1 hmem with rfl | hmem
    · exact (takes_of_read hread).eq_emptyRun htext
    · exact ih token hmem htext

theorem exists_reaches_of_emptyRun_mem {t : Text} {ts : List BindToken}
    (h : reader.scan t = .ok ts) : emptyRun ∈ ts → ∃ rest, Reaches t ('"' :: '"' :: rest) := by
  refine reader.scan_induction
    (motive := fun t ts => emptyRun ∈ ts → ∃ rest, Reaches t ('"' :: '"' :: rest)) ?_ ?_ h
  · intro t _ hmem
    cases hmem
  · intro t found u ts hread ih hmem
    have htakes := takes_of_read hread
    have hskip {rest : Text} (hrest : Reaches (found.spelling ++ u) rest) : Reaches t rest := by
      rw [← htakes.eq_append, ← List.append_nil (Text.skipSeparators t)] at hrest
      rw [← List.append_nil t]
      exact hrest.of_skipSeparators
    rcases List.mem_cons.1 hmem with rfl | hmem
    · exact ⟨u, hskip (.refl _)⟩
    · obtain ⟨rest, hrest⟩ := ih hmem
      exact ⟨rest, hskip (htakes.reaches hrest)⟩

theorem mem_of_mem_joinNots {token : BindToken} (htext : token.text = []) {ts : List BindToken} :
    token ∈ joinNots ts → token ∈ ts := by
  refine joinNots_induction (motive := fun ts us => token ∈ us → token ∈ ts) id ?_ ?_ ts
  · intro a n ts us _ _ ih hmem
    rcases List.mem_cons.1 hmem with rfl | hmem
    · simp at htext
    · simp [ih hmem]
  · intro t ts us ih hmem
    rcases List.mem_cons.1 hmem with rfl | hmem
    · simp
    · simp [ih hmem]

theorem emptyRun_mem_joinNots {ts : List BindToken} : emptyRun ∈ ts → emptyRun ∈ joinNots ts := by
  refine joinNots_induction (motive := fun ts us => emptyRun ∈ ts → emptyRun ∈ us) id ?_ ?_ ts
  · intro a n ts us ha hn ih hmem
    rcases List.mem_cons.1 hmem with rfl | hmem
    · cases ha
    · rcases List.mem_cons.1 hmem with rfl | hmem
      · cases hn
      · simp [ih hmem]
  · intro t ts us ih hmem
    rcases List.mem_cons.1 hmem with rfl | hmem
    · simp
    · simp [ih hmem]

/-- The text is scanned, and every quoted run in it has text. -/
def Scans (t : Text) : Prop :=
  ∃ found, reader.scan t = .ok found ∧ emptyRun ∉ found

theorem exists_tokens_iff {t : Text} : (∃ ts, tokens t = .ok ts) ↔ Scans t := by
  constructor
  · rintro ⟨ts, h⟩
    obtain ⟨found, hscan, rfl, hne⟩ := tokens_eq_ok_iff.1 h
    exact ⟨found, hscan, fun hmem => hne _ (emptyRun_mem_joinNots hmem) rfl⟩
  · rintro ⟨found, hscan, hempty⟩
    refine ⟨joinNots found, tokens_eq_ok_iff.2 ⟨found, hscan, rfl, fun token hmem htext => ?_⟩⟩
    have hfound := mem_of_mem_joinNots htext hmem
    rw [eq_emptyRun_of_scan hscan token hfound htext] at hfound
    exact hempty hfound

theorem tokens_of_scan_eq_error {t : Text} {halt : Halt} (h : reader.scan t = .error halt) :
    tokens t = .error (.scan (halt.fault .bind t)) := by
  rw [tokens, h]

/-- A text is refused where scanning stops, or for a run without text. -/
theorem tokens_eq_error {t : Text} {e : Error} (h : tokens t = .error e) :
    (∃ halt, reader.scan t = .error halt ∧ e = .scan (halt.fault .bind t)) ∨
      ∃ found, reader.scan t = .ok found ∧ emptyRun ∈ found ∧
        e = .scan (.emptyToken (.value true) (Text.trim t)) := by
  unfold tokens at h
  split at h
  · rename_i halt hscan
    cases h
    exact Or.inl ⟨halt, hscan, rfl⟩
  · rename_i found hscan
    simp only at h
    split at h
    · rename_i token hfind
      cases h
      have hfound := List.find?_some hfind
      have htext := List.isEmpty_iff.1 hfound
      have hmem := mem_of_mem_joinNots htext (List.mem_of_find?_eq_some hfind)
      obtain rfl := eq_emptyRun_of_scan hscan token hmem htext
      exact Or.inr ⟨found, hscan, hmem, rfl⟩
    · cases h

/-! ## Reading on in a text that is scanned -/

/-- Behind its first character, what is left of a token is a token too, or nothing is left. -/
theorem Takes.tail {c : Char} {t rest : Text} {token : BindToken} (h : Takes (c :: t) token rest)
    (hends : token.Ends rest) (hc : c ≠ '"') :
    t = rest ∨ ∃ left : BindToken, left.text ≠ [] ∧
      reader.scan t = (reader.scan rest).map (left :: ·) := by
  generalize hs : c :: t = s at h
  cases h with
  | openParen => cases hs; exact Or.inl rfl
  | closeParen => cases hs; exact Or.inl rfl
  | quoted => cases hs; exact absurd rfl hc
  | operator op =>
      have hequals : reader.scan ('=' :: rest) =
          (reader.scan rest).map (⟨.operator .eq, Operator.eq.symbol⟩ :: ·) :=
        reader.scan_token (by decide) rfl
      cases op with
      | eq | lt | gt => exact Or.inl (List.cons.inj hs).2
      | ne | le | ge =>
          obtain rfl : t = '=' :: rest := (List.cons.inj hs).2
          exact Or.inr ⟨_, by decide, hequals⟩
  | @word word hne hword =>
      cases word with
      | nil => exact absurd rfl hne
      | cons d word =>
          obtain ⟨-, rfl⟩ := List.cons.inj hs
          by_cases hempty : word = []
          · exact Or.inl (by rw [hempty]; rfl)
          · refine Or.inr ⟨⟨kindOfWord word, word⟩, hempty, scan_word hempty ?_ ?_⟩
            · exact fun e he => hword e (List.mem_cons_of_mem d he)
            · exact hends.word (isWord_kindOfWord _)

/-- What follows a character that opens no run is scanned if the whole is. -/
theorem Scans.tail {c : Char} {t : Text} (h : Scans (c :: t)) (hc : c ≠ '"') : Scans t := by
  obtain ⟨found, hscan, hempty⟩ := h
  cases hsep : Text.isSeparator c with
  | true =>
      rw [reader.scan_separator hsep] at hscan
      exact ⟨found, hscan, hempty⟩
  | false =>
      obtain ⟨token, rest, us, hread, hrest, rfl⟩ := reader.exists_of_scan_cons hsep hscan
      have hus : emptyRun ∉ us := fun hmem => hempty (List.mem_cons_of_mem token hmem)
      rcases (takes_of_read hread).tail (ends_of_read hread) hc with rfl | ⟨left, htext, hleft⟩
      · exact ⟨us, hrest, hus⟩
      · rw [hrest] at hleft
        refine ⟨left :: us, hleft, fun hmem => ?_⟩
        rcases List.mem_cons.1 hmem with rfl | hmem
        · exact htext rfl
        · exact hus hmem

theorem Scans.of_reaches {t rest : Text} (hreaches : Reaches t rest) (h : Scans t) :
    Scans rest := by
  induction hreaches with
  | refl => exact h
  | char hc _ ih => exact ih (h.tail hc)
  | @run run t rest hquotes hescape _ ih =>
      obtain ⟨found, hscan, hempty⟩ := h
      have hclosed := Text.isClosed_iff.2 ⟨hquotes, hescape⟩
      rw [scan_quote (Text.closeRun?_of_isClosed hclosed t)] at hscan
      obtain ⟨us, hus, rfl⟩ := Outcome.map_eq_ok.1 hscan
      exact ih ⟨us, hus, fun hmem => hempty (List.mem_cons_of_mem _ hmem)⟩

/-- Nothing that is scanned starts with what is malformed, because no token does. -/
theorem Malformed.not_scans {t : Text} (h : Malformed t) : ¬Scans t := by
  rintro ⟨found, hscan, hempty⟩
  obtain ⟨c, u, rfl, hc⟩ : ∃ c u, t = c :: u ∧ Text.isSeparator c = false := by
    cases h with
    | bang => exact ⟨_, _, rfl, rfl⟩
    | blank _ hc => exact ⟨_, _, rfl, hc⟩
    | openRun => exact ⟨_, _, rfl, rfl⟩
    | emptyRun => exact ⟨_, _, rfl, rfl⟩
  obtain ⟨token, rest, us, hread, -, rfl⟩ := reader.exists_of_scan_cons hc hscan
  rw [(takes_of_read hread).eq_emptyRun_of_malformed h] at hempty
  exact hempty (by simp)

/-! ## The place of a fault -/

/--
What is in front of a fragment at which scanning stops, and the context that is reported.  What
is in front is scanned to its end, and runs without text are no hindrance to that.
-/
inductive Stops : Text → Text → String → Prop where
  | noToken {before fragment : Text} {found : List BindToken}
      (hbefore : reader.scan before = .ok found) (hmalformed : Malformed fragment)
      (hquote : fragment.head? ≠ some '"') (hnone : ∀ token rest, ¬Takes fragment token rest) :
      Stops before fragment "bind rule"
  /-- The fragment is a run without end, behind its opening quote. -/
  | openQuote {before run : Text} {found : List BindToken}
      (hbefore : reader.scan before = .ok found) (hrun : Text.quotesEscaped false run = true) :
      Stops (before ++ ['"']) run "bind rule/unterminated quoted value"

theorem exists_stops_of_scan_eq_error {t : Text} {halt : Halt}
    (h : reader.scan t = .error halt) :
    ∃ (p : Place) (context : String), t = p.before ++ p.fragment ∧
      Stops p.before p.fragment context ∧ (halt.fault .bind t).message = p.message context := by
  obtain ⟨before, stop, found, rfl, hbefore, hstop⟩ := exists_stopsAt_of_scan_eq_error h
  cases hstop with
  | @noToken c u hmalformed hc =>
      refine ⟨⟨before, c :: u⟩, _, rfl, .noToken hbefore hmalformed (by simpa using hc) ?_, ?_⟩
      · intro token rest htakes
        obtain rfl := htakes.eq_emptyRun_of_malformed hmalformed
        exact hc (List.cons.inj htakes.eq_append).1
      · rw [Halt.fault, Place.ofFragment_append]
        rfl
  | @openQuote run hrun =>
      have hsplit : before ++ '"' :: run = before ++ ['"'] ++ run := by simp
      refine ⟨⟨before ++ ['"'], run⟩, _, hsplit, .openQuote hbefore hrun, ?_⟩
      rw [hsplit, Halt.fault, Place.ofFragment_append]
      rfl

/-- What an error tells of a text that is refused with it. -/
inductive Explains (t : Text) (e : Error) : Prop where
  /-- The text is scanned to its end, but a quoted run in it has no text. -/
  | emptyRun {found : List BindToken} (hscan : reader.scan t = .ok found)
      (hmem : emptyRun ∈ found) (herror : e = .scan (.emptyToken (.value true) (Text.trim t)))
  /-- Scanning stops at a fragment, whose place is told in lines and in characters. -/
  | stop {before fragment last : Text} {context : String} {line column : Nat}
      (hsplit : t = before ++ fragment) (hstops : Stops before fragment context)
      (hline : line = 1 + before.count '\n') (hlast : Text.IsLastLine before last)
      (hcolumn : column = 1 + last.length)
      (hmessage : e.message = "Lexical error when scanning `" ++
        (s!"Error scanning at line {line} at column {column}, " ++
          s!"when handling {context}, fragment {String.ofList fragment}") ++ "`")

end BindToken

open BindToken in
/--
The tokens of a bind rule are refused exactly if reading comes to a malformed place, and the
error tells where that is.
-/
theorem tokens_fail_at_malformed (t : Text) :
    ((∃ e, tokens t = .error e) ↔ ∃ rest, Reaches t rest ∧ Malformed rest) ∧
    ∀ e, tokens t = .error e → Explains t e := by
  refine ⟨⟨?_, ?_⟩, fun e h => ?_⟩
  · rintro ⟨e, h⟩
    rcases tokens_eq_error h with ⟨halt, hscan, -⟩ | ⟨found, hscan, hmem, -⟩
    · obtain ⟨before, stop, found, rfl, hbefore, hstop⟩ := exists_stopsAt_of_scan_eq_error hscan
      exact ⟨stop, reaches_of_scan hbefore stop, hstop.malformed⟩
    · obtain ⟨rest, hreaches⟩ := exists_reaches_of_emptyRun_mem hscan hmem
      exact ⟨_, hreaches, .emptyRun rest⟩
  · rintro ⟨rest, hreaches, hmalformed⟩
    cases h : tokens t with
    | error e => exact ⟨e, rfl⟩
    | ok ts => exact absurd ((exists_tokens_iff.1 ⟨ts, h⟩).of_reaches hreaches) hmalformed.not_scans
  · rcases tokens_eq_error h with ⟨halt, hscan, rfl⟩ | ⟨found, hscan, hmem, rfl⟩
    · obtain ⟨p, context, hsplit, hstops, hmessage⟩ := exists_stops_of_scan_eq_error hscan
      obtain ⟨last, hlast, hcolumn⟩ := p.exists_isLastLine
      exact .stop hsplit hstops rfl hlast rfl (Error.message_scan hmessage rfl hcolumn)
    · exact .emptyRun hscan hmem rfl

/-- A run without end in the second line, behind a character of two bytes. -/
def openRule : Text :=
  "ssf >= \"71\" and\n é = \"a\\\"".toList

def openFault : Error :=
  .scan (.openQuote .bind ⟨"ssf >= \"71\" and\n é = \"".toList, "a\\\"".toList⟩)

open BindToken in
theorem tokens_fail_at_malformed_of_openRule :
    tokens openRule = .error openFault ∧ (∃ rest, Reaches openRule rest ∧ Malformed rest) ∧
      Explains openRule openFault := by
  have hscan : reader.scan openRule = .error (.openQuote "a\\\"".toList) := by decide +kernel
  have htokens : tokens openRule = .error openFault := tokens_of_scan_eq_error hscan
  obtain ⟨hiff, hexplains⟩ := tokens_fail_at_malformed openRule
  exact ⟨htokens, hiff.1 ⟨_, htokens⟩, hexplains _ htokens⟩

end DirectoryAccess
