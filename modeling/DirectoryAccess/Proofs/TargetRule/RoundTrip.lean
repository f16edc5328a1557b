import DirectoryAccess.Proofs.TargetRule.Rendering

/-!
# Which target rules read back

A target rule that was read is read from its own text exactly if every text that
it writes between quotes is closed and the texts of each clause read as its
value.  A text that is not closed takes in the quote that opens the next one, so
that the next text follows a value where a separator should stand.
-/

namespace DirectoryAccess

namespace TargetRule

/-- Holds if bars or a closing parenthesis follow every value. -/
def isRuled : List TargetToken → Bool
  | [] => true
  | [.value _] => false
  | .value _ :: t :: rest => (t == .bars || t == .closeParen) && isRuled (t :: rest)
  | _ :: rest => isRuled rest

theorem isRuled_of_value_cons {v : Text} {ts : List TargetToken}
    (h : isRuled (.value v :: ts) = true) : isRuled ts = true := by
  cases ts with
  | nil => rfl
  | cons t ts =>
      rw [isRuled, Bool.and_eq_true] at h
      exact h.2

theorem isRuled_valueTokens {vs : List Text} {rest : List TargetToken} (hne : vs ≠ [])
    (hrest : isRuled rest = true) : isRuled (valueTokens vs ++ rest) = true := by
  induction vs with
  | nil => exact absurd rfl hne
  | cons v vs ih =>
      cases vs with
      | nil => simp [valueTokens, isRuled, hrest]
      | cons w vs =>
          rw [valueTokens_cons (List.cons_ne_nil w vs), List.cons_append, List.cons_append]
          simp only [isRuled, ih (List.cons_ne_nil w vs)]
          rfl

theorem AreClauses.isRuled {ts : List TargetToken} {cs : List Clause} (h : AreClauses ts cs) :
    isRuled ts = true := by
  induction h with
  | nil => rfl
  | @cons ts us c cs hc hcs ih =>
      cases hc with
      | intro hkeyword hne hvalue =>
          rw [List.cons_append, List.cons_append, List.cons_append]
          simp only [TargetRule.isRuled, isRuled_valueTokens hne ih]

end TargetRule

namespace TargetPiece

open TargetToken TargetRule

/-- Behind the first quote that pieces write stands one of their values. -/
theorem exists_of_cutQuote? {ps : List TargetPiece} {a b : Text}
    (h : Text.cutQuote? (ps.flatMap text) = some (a, b)) :
    ∃ v rest, value v ∈ ps ∧ b = v ++ '"' :: rest := by
  induction ps generalizing a with
  | nil => cases h
  | cons p ps ih =>
      have hglue (hquotes : Text.quotesEscaped false p.text = true)
          (hescape : Text.escaping false p.text = false) :
          ∃ v rest, value v ∈ p :: ps ∧ b = v ++ '"' :: rest := by
        rw [List.flatMap_cons, Text.cutQuote?_append hquotes hescape] at h
        obtain ⟨⟨a', b'⟩, hparts, heq⟩ := Option.map_eq_some_iff.1 h
        obtain ⟨-, rfl⟩ := Prod.mk.inj heq
        obtain ⟨v, rest, hv, hb⟩ := ih hparts
        exact ⟨v, rest, List.mem_cons_of_mem p hv, hb⟩
      cases p with
      | value v =>
          have htext : (value v :: ps).flatMap text = '"' :: (v ++ '"' :: ps.flatMap text) := by
            simp [text, Text.quote]
          rw [htext, Text.cutQuote?_cons_quote] at h
          cases h
          exact ⟨v, ps.flatMap text, by simp, rfl⟩
      | opening k op =>
          refine hglue ?_ ?_
          · cases k <;> cases op <;> decide
          · cases k <;> cases op <;> decide
      | bars => exact hglue (by decide) (by decide)
      | closing => exact hglue (by decide) (by decide)

/-- No separator of a clause starts where a value does. -/
theorem isRuled_value_cons_of_startsValue {v t : Text} {ts : List TargetToken}
    (ht : t.startsValue = true) (h : reader.scan t = .ok ts) : isRuled (.value v :: ts) = false := by
  cases t with
  | nil => cases ht
  | cons c cs =>
      have hc : c ≠ ')' ∧ c ≠ '|' ∧ Text.isSeparator c = false := by
        refine ⟨?_, ?_, ?_⟩
        · rintro rfl
          cases ht
        · rintro rfl
          cases ht
        · by_contra hsep
          simp only [Text.isSeparator, Bool.not_eq_false, Bool.or_eq_true, beq_iff_eq] at hsep
          rcases hsep with ((rfl | rfl) | rfl) | rfl <;> cases ht
      obtain ⟨token, rest, us, hread, -, rfl⟩ := reader.exists_of_scan_cons hc.2.2 h
      have htoken : token ≠ .bars ∧ token ≠ .closeParen := by
        constructor
        · rintro rfl
          exact hc.2.1 (List.cons.inj (cons_bars_of_read hread)).1
        · rintro rfl
          exact hc.1 (List.cons.inj (cons_closeParen_of_read hread)).1
      simp [isRuled, htoken.1, htoken.2]

theorem isRuled_of_tokens_append {p : TargetPiece} {ts : List TargetToken}
    (h : isRuled (p.tokens ++ ts) = true) : isRuled ts = true := by
  cases p with
  | value v => exact isRuled_of_value_cons h
  | opening k op => exact h
  | bars => exact h
  | closing => exact h

/--
A value that escapes the quote behind it takes in all that is written up to the next value, which
follows it where a separator should.
-/
theorem isRuled_of_escaping {v : Text} {ps : List TargetPiece} {ts : List TargetToken}
    (hquotes : Text.quotesEscaped false v = true) (hescape : Text.escaping false v = true)
    (hstarts : ∀ w, value w ∈ ps → w.startsValue = true)
    (hscan : reader.scan ((value v).text ++ ps.flatMap text) = .ok ts) : isRuled ts = false := by
  have htext : (value v).text ++ ps.flatMap text = '"' :: (v ++ '"' :: ps.flatMap text) := by
    simp [text, Text.quote]
  have hclose := Text.cutQuote?_append_escaped hquotes hescape '"' (t := ps.flatMap text)
  rw [← Text.closeRun?_eq_cutQuote?] at hclose
  rw [htext] at hscan
  cases hcut : Text.cutQuote? (ps.flatMap text) with
  | none =>
      rw [hcut, Option.map_none] at hclose
      rw [scan_openQuote hclose] at hscan
      cases hscan
  | some parts =>
      obtain ⟨a, b⟩ := parts
      rw [hcut, Option.map_some] at hclose
      rw [scan_quote hclose] at hscan
      obtain ⟨us, hus, rfl⟩ := Outcome.map_eq_ok.1 hscan
      obtain ⟨w, rest, hw, rfl⟩ := exists_of_cutQuote? hcut
      exact isRuled_value_cons_of_startsValue (Text.startsValue_append (hstarts w hw) _) hus

/-- Pieces are read only if each of them can be scanned: no value takes in the quote behind it. -/
theorem isScanned_of_scan {ps : List TargetPiece} {ts : List TargetToken}
    (hops : ∀ k op, opening k op ∈ ps → isKnown op = true)
    (hvalues : ∀ v, value v ∈ ps → Text.quotesEscaped false v = true ∧ v.startsValue = true)
    (hscan : reader.scan (ps.flatMap text) = .ok ts) (hruled : isRuled ts = true) :
    ∀ p ∈ ps, p.IsScanned := by
  induction ps generalizing ts with
  | nil => simp
  | cons p ps ih =>
      have hrest : ∀ v, value v ∈ ps → Text.quotesEscaped false v = true ∧ v.startsValue = true :=
        fun v hv => hvalues v (List.mem_cons_of_mem p hv)
      rw [List.flatMap_cons] at hscan
      have hp : p.IsScanned := by
        cases p with
        | opening k op => exact hops k op (by simp)
        | value v =>
            obtain ⟨hquotes, -⟩ := hvalues v (by simp)
            by_contra hopen
            have hescape := Text.escaping_of_not_isClosed hquotes (Bool.eq_false_iff.2 hopen)
            rw [isRuled_of_escaping hquotes hescape (fun w hw => (hrest w hw).2) hscan] at hruled
            cases hruled
        | bars => trivial
        | closing => trivial
      rw [scan_piece hp] at hscan
      obtain ⟨us, hus, rfl⟩ := Outcome.map_eq_ok.1 hscan
      exact List.forall_mem_cons.2 ⟨hp, ih (fun k op h => hops k op (List.mem_cons_of_mem p h))
        hrest hus (isRuled_of_tokens_append hruled)⟩

end TargetPiece

namespace Clause

/-- The clause comes from quoted runs of the text. -/
structure IsRead (t : Text) (c : Clause) : Prop where
  operator : TargetToken.isKnown c.op = true
  value : ∃ raws, Value.parseTarget c.keyword raws = .ok c.value ∧
    ∀ raw ∈ raws, raw <:+: t ∧ raw.isClosed = true

/-- What the clause writes between quotes can stand there and reads as its value. -/
structure ReadsBack (c : Clause) : Prop where
  closed : ∀ v ∈ c.quotedTexts, v.isClosed = true
  value : Value.parseTarget c.keyword c.quotedTexts = .ok c.value

namespace IsRead

variable {t : Text} {c : Clause}

/-- What the clause writes has the hereditary properties that each part of the text has. -/
theorem hereditary (h : c.IsRead t) {P : Text → Prop} (hP : Text.IsHereditary P)
    (ht : ∀ raw, raw <:+: t → P raw) : ∀ v ∈ c.quotedTexts, P v := by
  obtain ⟨raws, hvalue, hraws⟩ := h.value
  exact hereditary_quotedTexts hP hvalue fun raw hraw => ht raw (hraws raw hraw).1

theorem quotesEscaped (h : c.IsRead t) : ∀ v ∈ c.quotedTexts, Text.quotesEscaped false v = true := by
  obtain ⟨raws, hvalue, hraws⟩ := h.value
  exact hereditary_quotedTexts Text.quotesEscaped_isHereditary hvalue
    fun raw hraw => (Text.isClosed_iff.1 (hraws raw hraw).2).1

theorem startsValue (h : c.IsRead t) : ∀ v ∈ c.quotedTexts, v.startsValue = true := by
  obtain ⟨raws, hvalue, -⟩ := h.value
  exact startsValue_quotedTexts hvalue

theorem quotedTexts_ne_nil (h : c.IsRead t) : c.quotedTexts ≠ [] := by
  obtain ⟨raws, hvalue, -⟩ := h.value
  exact Clause.quotedTexts_ne_nil hvalue

end IsRead

end Clause

namespace TargetRule

open TargetPiece (ofRule ofClause)

theorem value_mem_valueTokens {v : Text} {vs : List Text} :
    TargetToken.value v ∈ valueTokens vs ↔ v ∈ vs := by
  induction vs with
  | nil => simp [valueTokens]
  | cons w vs ih =>
      cases vs with
      | nil => simp [valueTokens]
      | cons x vs => simp [valueTokens_cons (List.cons_ne_nil x vs), ih]

theorem AreClauses.isRead {t : Text} {ts : List TargetToken} {cs : List Clause}
    (h : AreClauses ts cs) (hts : ∀ token ∈ ts, token.IsFrom t) : ∀ c ∈ cs, c.IsRead t := by
  induction h with
  | nil => simp
  | @cons ts us c cs hc hcs ih =>
      intro d hd
      rcases List.mem_cons.1 hd with rfl | hd
      · cases hc with
        | @intro name k op raws v hkeyword hne hvalue =>
            refine ⟨hts (.operator op) (by simp), raws, hvalue, fun raw hraw => ?_⟩
            refine hts (.value raw) ?_
            simp [value_mem_valueTokens.2 hraw]
      · exact ih (fun token htoken => hts token (List.mem_append_right ts htoken)) d hd

theorem isRead_of_parse {t : Text} {r : TargetRule} (h : parse t = .ok r) :
    ∀ c ∈ r.clauses, c.IsRead t := by
  obtain ⟨ts, cs, hscan, hcs, rfl⟩ := parse_eq_ok_iff.1 h
  intro c hc
  have hmem : c ∈ cs := by simpa [empty] using (foldl_push_sublist empty cs).subset hc
  exact hcs.isRead (TargetToken.isFrom_of_scan hscan) c hmem

/-- A text that holds more than white space has a clause, if it is a rule at all. -/
theorem clauses_ne_nil_of_parse {c : Char} {t : Text} {r : TargetRule}
    (hc : Text.isSeparator c = false) (h : parse (c :: t) = .ok r) : r.clauses ≠ [] := by
  obtain ⟨ts, cs, hscan, hcs, rfl⟩ := parse_eq_ok_iff.1 h
  obtain ⟨token, rest, us, -, -, rfl⟩ := TargetToken.reader.exists_of_scan_cons hc hscan
  obtain ⟨d, ds, rfl⟩ := List.exists_cons_of_ne_nil (mt hcs.eq_nil_iff.2 (by simp))
  have hfirst : (push empty d).clauses = [d] := rfl
  obtain ⟨es, hes⟩ := isPrefix_foldl_push (push empty d) ds
  rw [List.foldl_cons, ← hes, hfirst]
  simp

theorem tokens_ofClause (c : Clause) :
    (ofClause c).flatMap TargetPiece.tokens =
      .openParen :: .keyword c.keyword.name :: .operator c.op :: valueTokens c.quotedTexts := by
  rw [ofClause, List.flatMap_cons, TargetPiece.tokens_ofValues]
  rfl

theorem isClause_tokens {c : Clause} (h : c.ReadsBack) :
    IsClause ((ofClause c).flatMap TargetPiece.tokens) c := by
  rw [tokens_ofClause]
  refine .intro (TargetPiece.parse_name c.keyword) ?_ h.value
  exact Clause.quotedTexts_ne_nil h.value

theorem areClauses_tokens {cs : List Clause} (h : ∀ c ∈ cs, c.ReadsBack) :
    AreClauses ((cs.flatMap ofClause).flatMap TargetPiece.tokens) cs := by
  induction cs with
  | nil => exact .nil
  | cons c cs ih =>
      rw [List.flatMap_cons, List.flatMap_append]
      exact .cons (isClause_tokens (h c (by simp)))
        (ih fun d hd => h d (List.mem_cons_of_mem c hd))

/-- The tokens of a written clause are read as a clause with the value of its texts. -/
theorem AreClauses.exists_cons {c : Clause} {us : List TargetToken} {cs : List Clause}
    (hne : c.quotedTexts ≠ [])
    (h : AreClauses ((ofClause c).flatMap TargetPiece.tokens ++ us) cs) :
    ∃ v cs', cs = ⟨c.keyword, c.op, v⟩ :: cs' ∧
      Value.parseTarget c.keyword c.quotedTexts = .ok v ∧ AreClauses us cs' := by
  rw [tokens_ofClause] at h
  generalize hlist : _ :: _ :: _ :: valueTokens c.quotedTexts ++ us = list at h
  cases h with
  | nil => cases hlist
  | @cons ts ws d ds hd hds =>
      have hread : clauseFrom (ts ++ ws) = .ok (d, ws) := clauseFrom_eq_ok_iff.2 ⟨ts, rfl, hd⟩
      have hvalues : valuesFrom c.keyword (valueTokens c.quotedTexts ++ us) =
          .ok (c.quotedTexts, us) := valuesFrom_eq_ok_iff.2 ⟨hne, rfl⟩
      rw [← hlist] at hread
      simp only [List.cons_append, clauseFrom, TargetPiece.parse_name, bind, Except.bind,
        hvalues] at hread
      split at hread
      · cases hread
      · rename_i v hvalue
        cases hread
        exact ⟨v, ds, rfl, hvalue, hds⟩

/-- What written clauses are read as differs from them in the values at most. -/
theorem AreClauses.forall₂ {cs ds : List Clause} (hne : ∀ c ∈ cs, c.quotedTexts ≠ [])
    (h : AreClauses ((cs.flatMap ofClause).flatMap TargetPiece.tokens) ds) :
    List.Forall₂ (fun c d => d.keyword = c.keyword ∧ d.op = c.op ∧
      Value.parseTarget c.keyword c.quotedTexts = .ok d.value) cs ds := by
  induction cs generalizing ds with
  | nil =>
      rw [h.eq_nil_iff.1 rfl]
      exact .nil
  | cons c cs ih =>
      rw [List.flatMap_cons, List.flatMap_append] at h
      obtain ⟨v, ds', rfl, hv, hds⟩ := h.exists_cons (hne c (by simp))
      exact .cons ⟨rfl, rfl, hv⟩ (ih (fun d hd => hne d (List.mem_cons_of_mem c hd)) hds)

theorem keywords_eq {cs ds : List Clause} (h : List.Forall₂ (fun c d =>
    d.keyword = c.keyword ∧ d.op = c.op ∧
      Value.parseTarget c.keyword c.quotedTexts = .ok d.value) cs ds) :
    ds.map Clause.keyword = cs.map Clause.keyword := by
  induction h with
  | nil => rfl
  | cons hcd _ ih => rw [List.map_cons, List.map_cons, hcd.1, ih]

/-- Clauses that differ from those of a rule in the values at most make this rule only themselves. -/
theorem eq_clauses_of_foldl_push {r : TargetRule} {ds : List Clause} (hdistinct : IsDistinct r)
    (hall : List.Forall₂ (fun c d => d.keyword = c.keyword ∧ d.op = c.op ∧
      Value.parseTarget c.keyword c.quotedTexts = .ok d.value) r.clauses ds)
    (hfold : r = ds.foldl push empty) : ds = r.clauses := by
  have hsame : IsDistinct ⟨empty.clauses ++ ds⟩ := by
    refine ⟨?_, ?_⟩
    · rw [empty, List.nil_append, keywords_eq hall]
      exact hdistinct.keywords
    · rw [empty, List.nil_append, ← hall.length_eq]
      exact hdistinct.size
  rw [hfold, foldl_push_eq hsame, empty, List.nil_append]

/-- The pieces of a rule can be scanned if its operators are known and its texts closed. -/
theorem isScanned_ofRule_iff {r : TargetRule} :
    (∀ p ∈ ofRule r, p.IsScanned) ↔
      ∀ c ∈ r.clauses, TargetToken.isKnown c.op = true ∧ ∀ v ∈ c.quotedTexts, v.isClosed = true := by
  constructor
  · intro hscanned c hc
    refine ⟨?_, fun v hv => ?_⟩
    · exact hscanned (.opening c.keyword c.op) (TargetPiece.opening_mem_ofRule.2 ⟨c, hc, rfl, rfl⟩)
    · exact hscanned (.value v) (TargetPiece.value_mem_ofRule.2 ⟨c, hc, hv⟩)
  · intro hclauses p hp
    cases p with
    | opening k op =>
        obtain ⟨c, hc, rfl, rfl⟩ := TargetPiece.opening_mem_ofRule.1 hp
        exact (hclauses c hc).1
    | value v =>
        obtain ⟨c, hc, hv⟩ := TargetPiece.value_mem_ofRule.1 hp
        exact (hclauses c hc).2 v hv
    | bars => trivial
    | closing => trivial

theorem scan_text {r : TargetRule} (hscanned : ∀ p ∈ ofRule r, p.IsScanned) :
    TargetToken.reader.scan r.text = .ok ((ofRule r).flatMap TargetPiece.tokens) := by
  have hscan := TargetPiece.scan_pieces hscanned []
  rw [List.append_nil, TargetPiece.text_ofRule, TokenReader.scan_nil] at hscan
  simpa only [Except.map, List.append_nil] using hscan

/-- The text of clauses that read back is read as what pushing these clauses makes. -/
theorem parse_text_eq_foldl_push {r : TargetRule}
    (hops : ∀ c ∈ r.clauses, TargetToken.isKnown c.op = true)
    (hread : ∀ c ∈ r.clauses, c.ReadsBack) : parse r.text = .ok (r.clauses.foldl push empty) := by
  have hscan := scan_text (isScanned_ofRule_iff.2 fun c hc => ⟨hops c hc, (hread c hc).closed⟩)
  exact parse_eq_ok_iff.2 ⟨_, r.clauses, hscan, areClauses_tokens hread, rfl⟩

/-- A rule whose clauses read back is read from its own text. -/
theorem parse_text {r : TargetRule} (hdistinct : IsDistinct r)
    (hops : ∀ c ∈ r.clauses, TargetToken.isKnown c.op = true)
    (hread : ∀ c ∈ r.clauses, c.ReadsBack) : parse r.text = .ok r := by
  have hsame : IsDistinct ⟨empty.clauses ++ r.clauses⟩ := by simpa [empty] using hdistinct
  rw [parse_text_eq_foldl_push hops hread, foldl_push_eq hsame, empty, List.nil_append]

/-- A text from which clauses are read that were read before has all its pieces scanned. -/
theorem isScanned_of_scan_text {t : Text} {r : TargetRule} {ts : List TargetToken}
    (hread : ∀ c ∈ r.clauses, c.IsRead t) (hscan : TargetToken.reader.scan r.text = .ok ts)
    (hruled : isRuled ts = true) : ∀ p ∈ ofRule r, p.IsScanned := by
  have hops : ∀ k op, TargetPiece.opening k op ∈ ofRule r → TargetToken.isKnown op = true := by
    intro k op hp
    obtain ⟨c, hc, -, rfl⟩ := TargetPiece.opening_mem_ofRule.1 hp
    exact (hread c hc).operator
  have hvalues : ∀ v, TargetPiece.value v ∈ ofRule r →
      Text.quotesEscaped false v = true ∧ v.startsValue = true := by
    intro v hv
    obtain ⟨c, hc, hv⟩ := TargetPiece.value_mem_ofRule.1 hv
    exact ⟨(hread c hc).quotesEscaped v hv, (hread c hc).startsValue v hv⟩
  rw [← TargetPiece.text_ofRule] at hscan
  exact TargetPiece.isScanned_of_scan hops hvalues hscan hruled

/-- A rule that was read is read from its own text exactly if its clauses read back. -/
theorem parse_text_iff {t : Text} {r : TargetRule} (h : parse t = .ok r) :
    parse r.text = .ok r ↔ ∀ c ∈ r.clauses, c.ReadsBack := by
  have hread := isRead_of_parse h
  have hdistinct := isDistinct_of_parse h
  refine ⟨fun hagain => ?_, parse_text hdistinct fun c hc => (hread c hc).operator⟩
  obtain ⟨ts, ds, hscan, hds, hfold⟩ := parse_eq_ok_iff.1 hagain
  have hscanned := isScanned_of_scan_text hread hscan hds.isRuled
  rw [scan_text hscanned, Except.ok.injEq] at hscan
  rw [← hscan, ofRule] at hds
  have hall := hds.forall₂ fun c hc => (hread c hc).quotedTexts_ne_nil
  rw [eq_clauses_of_foldl_push hdistinct hall hfold.symm, List.forall₂_same] at hall
  exact fun c hc => ⟨(isScanned_ofRule_iff.1 hscanned c hc).2, (hall c hc).2.2⟩

/-- Every operator ends in a sign that the version lacks, with no full stop in front of it. -/
theorem exists_symbol_eq (op : Operator) : ∃ s d, op.symbol = s ++ [d] ∧ '.' ∉ Text.lower s ∧
    d.toLower ∉ Text.lower versionMarker := by
  cases op
  case eq => exact ⟨[], '=', rfl, by decide, by decide⟩
  case ne => exact ⟨['!'], '=', rfl, by decide, by decide⟩
  case lt => exact ⟨[], '<', rfl, by decide, by decide⟩
  case le => exact ⟨['<'], '=', rfl, by decide, by decide⟩
  case gt => exact ⟨[], '>', rfl, by decide, by decide⟩
  case ge => exact ⟨['>'], '=', rfl, by decide, by decide⟩

theorem lacks_opening_append {rest : Text} (k : TargetKeyword) (op : Operator)
    (hrest : Text.Lacks versionMarker rest) :
    Text.Lacks versionMarker ((TargetPiece.opening k op).text ++ rest) := by
  obtain ⟨s, d, hsymbol, hs, hd⟩ := exists_symbol_eq op
  have hname : '.' ∉ Text.lower k.name := by cases k <;> decide
  have hlower : Text.lower ('(' :: k.name ++ ' ' :: s) =
      '(' :: (Text.lower k.name ++ ' ' :: Text.lower s) := by
    simp [Text.lower]
  -- Up to the last sign of the operator there is no full stop, and the version has one.
  have hfront : Text.Lacks versionMarker ('(' :: k.name ++ ' ' :: s) := by
    refine .of_not_mem (c := '.') (by decide) ?_
    rw [hlower]
    simp [hname, hs]
  have hall := hfront.append_cons hd (hrest.cons (c := ' ') (by decide))
  simpa [TargetPiece.text, hsymbol] using hall

theorem lacks_quote_append {v rest : Text} (hv : Text.Lacks versionMarker v)
    (hrest : Text.Lacks versionMarker rest) :
    Text.Lacks versionMarker (Text.quote v ++ rest) := by
  have hquote := hv.append_cons (c := '"') (by decide) hrest
  have hall := (Text.Lacks.nil (by decide)).append_cons (c := '"') (by decide) hquote
  simpa [Text.quote] using hall

theorem lacks_bars_append {rest : Text} (hrest : Text.Lacks versionMarker rest) :
    Text.Lacks versionMarker (TargetPiece.bars.text ++ rest) := by
  have hbar := (Text.Lacks.nil (by decide)).append_cons (c := '|') (by decide)
    (hrest.cons (c := ' ') (by decide))
  have hbars := (Text.Lacks.nil (by decide)).append_cons (c := '|') (by decide) hbar
  exact hbars.cons (by decide)

theorem lacks_pieces {ps : List TargetPiece}
    (hvalues : ∀ v, TargetPiece.value v ∈ ps → Text.Lacks versionMarker v) :
    Text.Lacks versionMarker (ps.flatMap TargetPiece.text) := by
  induction ps with
  | nil => exact .nil (by decide)
  | cons p ps ih =>
      have hrest := ih fun v hv => hvalues v (List.mem_cons_of_mem p hv)
      rw [List.flatMap_cons]
      cases p with
      | opening k op => exact lacks_opening_append k op hrest
      | value v => exact lacks_quote_append (hvalues v (by simp)) hrest
      | bars => exact lacks_bars_append hrest
      | closing => exact (Text.Lacks.nil (by decide)).append_cons (by decide) hrest

/-- A rule writes the words that announce the version only if it was read from a text with them. -/
theorem lacks_text_of_parse {t : Text} {r : TargetRule} (h : parse t = .ok r)
    (ht : Text.Lacks versionMarker t) : Text.Lacks versionMarker r.text := by
  rw [← TargetPiece.text_ofRule]
  refine lacks_pieces fun v hv => ?_
  obtain ⟨c, hc, hv⟩ := TargetPiece.value_mem_ofRule.1 hv
  exact (isRead_of_parse h c hc).hereditary Text.lacks_isHereditary (fun _ => ht.of_isInfix) v hv

theorem exists_text_eq {r : TargetRule} (hne : r.clauses ≠ []) :
    ∃ m, r.text = '(' :: (m ++ [')']) := by
  have hclause (c : Clause) : ∃ m, c.text = '(' :: (m ++ [')']) :=
    ⟨c.keyword.name ++ ' ' :: c.op.symbol ++ ' ' :: Text.join " || ".toList
      (c.quotedTexts.map Text.quote), by simp [Clause.text]⟩
  obtain ⟨c, cs, hcs⟩ := List.exists_cons_of_ne_nil hne
  obtain ⟨m, hm⟩ := hclause c
  rw [text, hcs, List.flatMap_cons, hm]
  rcases List.eq_nil_or_concat' cs with rfl | ⟨ds, d, rfl⟩
  · exact ⟨m, by simp⟩
  · obtain ⟨n, hn⟩ := hclause d
    exact ⟨m ++ ')' :: (ds.flatMap Clause.text ++ '(' :: n), by simp [hn]⟩

end TargetRule

end DirectoryAccess
