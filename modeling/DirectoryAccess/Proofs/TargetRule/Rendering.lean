import DirectoryAccess.Proofs.TargetRule.Grammar
import DirectoryAccess.Proofs.Token.Target
import DirectoryAccess.Proofs.Value.Target

/-!
# Written target rules read back

A target rule that was read is read from its own text exactly if every text that
it writes between quotes is closed and the texts of each clause read as its
value.  A text that is not closed takes in the quote that opens the next one, so
that a value follows where a separator should stand.
-/

namespace DirectoryAccess

namespace Clause

/-- What a clause writes between quotes has every hereditary property of what was read. -/
theorem hereditary_quotedTexts {P : Text → Prop} (hP : Text.IsHereditary P) {c : Clause}
    {raws : List Text} (h : Value.parseTarget c.keyword raws = .ok c.value) (hraws : ∀ raw ∈ raws, P raw) :
    ∀ t ∈ c.quotedTexts, P t := by
  obtain ⟨k, op, v⟩ := c
  obtain ⟨-, h⟩ := Value.parseTarget_eq_ok_iff.1 h
  have hjoined : P (Text.join " || ".toList raws) := hP.join_spaced (by decide) hraws
  cases k
  case target | targetTo | targetFrom =>
    obtain ⟨l, hl, rfl⟩ := h
    have hall := NameList.hereditary_read hP hl hjoined
    simpa [quotedTexts, TargetKeyword.quotesEach, TargetKeyword.isName, Value.texts] using hall
  case targetControl | extOp =>
    obtain ⟨l, hl, rfl⟩ := h
    have hall := ObjectIdList.hereditary_read hP hl hjoined
    simpa [quotedTexts, TargetKeyword.quotesEach, Value.texts] using hall
  case targetAttr =>
    obtain ⟨l, hl, rfl⟩ := h
    have htext := AttributeList.hereditary_read hP hl hjoined
    simpa [quotedTexts, TargetKeyword.quotesEach, TargetKeyword.isName, Value.text] using htext
  case targetScope =>
    obtain ⟨raw, s, -, -, rfl⟩ := h
    have htext : P s.name := hP.letters (Text.forall_mem_of_all (by cases s <;> decide))
    simpa [quotedTexts, TargetKeyword.quotesEach, TargetKeyword.isName, Value.text] using htext
  case targetFilter =>
    obtain ⟨raw, f, rfl, hf, rfl⟩ := h
    have htext := SearchFilter.hereditary_read hP hf (hraws raw (by simp))
    simpa [quotedTexts, TargetKeyword.quotesEach, TargetKeyword.isName, Value.text] using htext
  case targetAttrFilters =>
    obtain ⟨raw, changes, rfl, hchanges, rfl⟩ := h
    have htext := FilterChanges.hereditary_read hP hchanges (hraws raw (by simp))
    simpa [quotedTexts, TargetKeyword.quotesEach, TargetKeyword.isName, Value.text] using htext

theorem startsValue_quotedTexts {c : Clause} {raws : List Text}
    (h : Value.parseTarget c.keyword raws = .ok c.value) :
    ∀ t ∈ c.quotedTexts, t.startsValue = true := by
  obtain ⟨k, op, v⟩ := c
  obtain ⟨-, h⟩ := Value.parseTarget_eq_ok_iff.1 h
  cases k
  case target | targetTo | targetFrom =>
    obtain ⟨l, hl, rfl⟩ := h
    have hall : ∀ e ∈ l.items, e.text.startsValue = true := by
      intro e _
      cases e <;> rfl
    simpa [quotedTexts, TargetKeyword.quotesEach, TargetKeyword.isName, Value.texts] using hall
  case targetControl | extOp =>
    obtain ⟨l, hl, rfl⟩ := h
    have hall : ∀ o ∈ l.items, o.text.startsValue = true := by
      intro o ho
      obtain ⟨entry, -, hread⟩ := ObjectIdList.exists_of_mem_items hl ho
      exact ObjectId.startsValue_of_read hread
    simpa [quotedTexts, TargetKeyword.quotesEach, Value.texts] using hall
  case targetAttr =>
    obtain ⟨l, hl, rfl⟩ := h
    have htext := AttributeList.startsValue_of_read hl
    simpa [quotedTexts, TargetKeyword.quotesEach, TargetKeyword.isName, Value.text] using htext
  case targetScope =>
    obtain ⟨raw, s, -, -, rfl⟩ := h
    have htext : s.name.startsValue = true := by cases s <;> rfl
    simpa [quotedTexts, TargetKeyword.quotesEach, TargetKeyword.isName, Value.text] using htext
  case targetFilter =>
    obtain ⟨raw, f, -, hf, rfl⟩ := h
    obtain ⟨-, -, rfl⟩ := SearchFilter.read_eq_ok_iff.1 hf
    have htext := SearchFilter.startsValue_parenthesized (Text.trim raw)
    simpa [quotedTexts, TargetKeyword.quotesEach, TargetKeyword.isName, Value.text] using htext
  case targetAttrFilters =>
    obtain ⟨raw, changes, -, hchanges, rfl⟩ := h
    have htext := FilterChanges.startsValue_text (FilterChanges.read_eq_ok_iff.1 hchanges).2
    simpa [quotedTexts, TargetKeyword.quotesEach, TargetKeyword.isName, Value.text] using htext

theorem quotedTexts_ne_nil {c : Clause} {raws : List Text}
    (h : Value.parseTarget c.keyword raws = .ok c.value) : c.quotedTexts ≠ [] := by
  obtain ⟨k, op, v⟩ := c
  obtain ⟨-, h⟩ := Value.parseTarget_eq_ok_iff.1 h
  cases k
  case target | targetTo | targetFrom =>
    obtain ⟨l, hl, rfl⟩ := h
    exact mt List.map_eq_nil_iff.1 (NameList.items_ne_nil_of_read hl)
  case targetControl | extOp =>
    obtain ⟨l, hl, rfl⟩ := h
    exact mt List.map_eq_nil_iff.1 (ObjectIdList.items_ne_nil_of_read hl)
  all_goals exact List.cons_ne_nil _ _

end Clause

/-- What the text of a target rule consists of. -/
inductive TargetPiece where
  | opening (k : TargetKeyword) (op : Operator)
  | value (v : Text)
  | bars
  | closing
deriving DecidableEq, Repr

namespace TargetPiece

def text : TargetPiece → Text
  | opening k op => '(' :: k.name ++ ' ' :: op.symbol ++ [' ']
  | value v => Text.quote v
  | bars => " || ".toList
  | closing => [')']

def tokens : TargetPiece → List TargetToken
  | opening k op => [.openParen, .keyword k.name, .operator op]
  | value v => [.value v]
  | bars => [.bars]
  | closing => [.closeParen]

def ofValues : List Text → List TargetPiece
  | [] => [closing]
  | [v] => [value v, closing]
  | v :: vs => value v :: bars :: ofValues vs

def ofClause (c : Clause) : List TargetPiece :=
  opening c.keyword c.op :: ofValues c.quotedTexts

def ofRule (r : TargetRule) : List TargetPiece :=
  r.clauses.flatMap ofClause

theorem ofValues_cons {v : Text} {vs : List Text} (hne : vs ≠ []) :
    ofValues (v :: vs) = value v :: bars :: ofValues vs := by
  cases vs with
  | nil => exact absurd rfl hne
  | cons w vs => rfl

theorem text_ofValues (vs : List Text) :
    (ofValues vs).flatMap text = Text.join " || ".toList (vs.map Text.quote) ++ [')'] := by
  induction vs with
  | nil => rfl
  | cons v vs ih =>
      cases vs with
      | nil => simp [ofValues, text, Text.join_cons]
      | cons w vs =>
          rw [ofValues_cons (List.cons_ne_nil w vs), List.flatMap_cons, List.flatMap_cons, ih]
          simp only [List.map_cons, Text.join_cons_cons, List.append_assoc]
          rfl

theorem text_ofClause (c : Clause) : (ofClause c).flatMap text = c.text := by
  rw [ofClause, List.flatMap_cons, text_ofValues, Clause.text, text]
  simp

theorem text_ofRule (r : TargetRule) : (ofRule r).flatMap text = r.text := by
  rw [ofRule, List.flatMap_assoc, TargetRule.text]
  exact List.flatMap_congr fun c _ => text_ofClause c

theorem tokens_ofValues (vs : List Text) :
    (ofValues vs).flatMap tokens = TargetRule.valueTokens vs := by
  induction vs with
  | nil => rfl
  | cons v vs ih =>
      cases vs with
      | nil => rfl
      | cons w vs =>
          rw [ofValues_cons (List.cons_ne_nil w vs), List.flatMap_cons, List.flatMap_cons, ih,
            TargetRule.valueTokens_cons (List.cons_ne_nil w vs)]
          rfl

theorem value_mem_ofValues {v : Text} {vs : List Text} : value v ∈ ofValues vs ↔ v ∈ vs := by
  induction vs with
  | nil => simp [ofValues]
  | cons w vs ih =>
      cases vs with
      | nil => simp [ofValues]
      | cons x vs => simp [ofValues_cons (List.cons_ne_nil x vs), ih]

theorem value_mem_ofRule {v : Text} {r : TargetRule} :
    value v ∈ ofRule r ↔ ∃ c ∈ r.clauses, v ∈ c.quotedTexts := by
  simp [ofRule, ofClause, List.mem_flatMap, value_mem_ofValues]

theorem opening_not_mem_ofValues (k : TargetKeyword) (op : Operator) (vs : List Text) :
    opening k op ∉ ofValues vs := by
  induction vs with
  | nil => simp [ofValues]
  | cons v vs ih =>
      cases vs with
      | nil => simp [ofValues]
      | cons w vs => simpa [ofValues_cons (List.cons_ne_nil w vs)] using ih

theorem opening_mem_ofClause {k : TargetKeyword} {op : Operator} {c : Clause} :
    opening k op ∈ ofClause c ↔ k = c.keyword ∧ op = c.op := by
  simp [ofClause, opening_not_mem_ofValues]

theorem opening_mem_ofRule {k : TargetKeyword} {op : Operator} {r : TargetRule} :
    opening k op ∈ ofRule r ↔ ∃ c ∈ r.clauses, k = c.keyword ∧ op = c.op := by
  simp [ofRule, List.mem_flatMap, opening_mem_ofClause]

open TargetToken

theorem name_ne_nil (k : TargetKeyword) : k.name ≠ [] := by
  cases k <;> decide

theorem isKeywordChar_of_mem_name (k : TargetKeyword) :
    ∀ c ∈ k.name, isKeywordChar c = true :=
  Text.forall_mem_of_all (by cases k <;> decide)

theorem parse_name (k : TargetKeyword) : TargetKeyword.parse k.name = .ok k := by
  cases k <;> rfl

theorem scan_opening {k : TargetKeyword} {op : Operator} (hop : isKnown op = true) (rest : Text) :
    reader.scan ((opening k op).text ++ rest) =
      (reader.scan rest).map ((opening k op).tokens ++ ·) := by
  have htext : (opening k op).text ++ rest =
      '(' :: (k.name ++ ' ' :: (op.symbol ++ ' ' :: rest)) := by
    simp [text]
  rw [htext, scan_openParen,
    scan_keyword (name_ne_nil k) (isKeywordChar_of_mem_name k) (by simp; decide),
    reader.scan_separator (by decide), scan_operator hop]
  cases reader.scan rest <;> rfl

/-- A piece can be scanned: its value is closed, its operator is one of target rules. -/
def IsScanned : TargetPiece → Prop
  | opening _ op => isKnown op = true
  | value v => v.isClosed = true
  | _ => True

theorem scan_piece {p : TargetPiece} (hp : p.IsScanned) (rest : Text) :
    reader.scan (p.text ++ rest) = (reader.scan rest).map (p.tokens ++ ·) := by
  cases p with
  | opening k op => exact scan_opening hp rest
  | value v =>
      have htext : (value v).text ++ rest = '"' :: (v ++ '"' :: rest) := by
        simp [text, Text.quote]
      rw [htext, scan_quote (Text.closeRun?_of_isClosed hp rest)]
      rfl
  | bars => exact scan_bars rest
  | closing => exact scan_closeParen rest

theorem scan_pieces {ps : List TargetPiece} (hps : ∀ p ∈ ps, p.IsScanned) (rest : Text) :
    reader.scan (ps.flatMap text ++ rest) = (reader.scan rest).map (ps.flatMap tokens ++ ·) := by
  induction ps with
  | nil => cases h : reader.scan rest <;> simp [h, Except.map]
  | cons p ps ih =>
      have htail := ih fun q hq => hps q (List.mem_cons_of_mem p hq)
      rw [List.flatMap_cons, List.append_assoc, scan_piece (hps p (by simp)), htail,
        List.flatMap_cons]
      cases reader.scan rest <;> simp [Except.map]

end TargetPiece

end DirectoryAccess
