import DirectoryAccess.Proofs.BindRule.Nesting
import DirectoryAccess.Proofs.Text.Join
import DirectoryAccess.Proofs.Token.Scan

/-!
# The pieces of a written rule

The text of a rule is a sequence of pieces: parentheses, connectives and
conditions.  A negation is no piece of its own, since it only stands behind
`AND`.  If the values of the conditions are closed, the tokens of the text are
those of its pieces.
-/

namespace DirectoryAccess

/-- What the text of a rule consists of. -/
inductive Piece where
  | opening
  | closing
  | link (c : Connective)
  | condition (c : Condition)
deriving DecidableEq, Repr

namespace Piece

def text : Piece → Text
  | opening => ['(']
  | closing => [')']
  | link .and => " AND ".toList
  | link .andNot => " AND NOT ".toList
  | link .or => " OR ".toList
  | condition c => c.text

def scanned : Piece → List BindToken
  | opening => [⟨.openParen, ['(']⟩]
  | closing => [⟨.closeParen, [')']⟩]
  | link .and => [⟨.and, "AND".toList⟩]
  | link .andNot => [⟨.and, "AND".toList⟩, ⟨.not, "NOT".toList⟩]
  | link .or => [⟨.or, "OR".toList⟩]
  | condition c =>
      [⟨.value false, c.keyword.name⟩, ⟨.operator c.op, c.op.symbol⟩, ⟨.value true, c.value.text⟩]

/-- The tokens of a piece, a negation joined with its connective. -/
def tokens : Piece → List BindToken
  | link .andNot => [⟨.andNot, "AND NOT".toList⟩]
  | p => p.scanned

def condition? : Piece → Option Condition
  | condition c => some c
  | _ => none

@[simp] theorem text_opening : text opening = ['('] :=
  rfl

@[simp] theorem text_closing : text closing = [')'] :=
  rfl

@[simp] theorem text_condition (c : Condition) : text (condition c) = c.text :=
  rfl

@[simp] theorem condition?_opening : condition? opening = none :=
  rfl

@[simp] theorem condition?_closing : condition? closing = none :=
  rfl

@[simp] theorem condition?_link (c : Connective) : condition? (link c) = none :=
  rfl

@[simp] theorem condition?_condition (c : Condition) : condition? (condition c) = some c :=
  rfl

def enclosed (written : Bool) (ps : List Piece) : List Piece :=
  if written then opening :: ps ++ [closing] else ps

theorem text_enclosed (written : Bool) (ps : List Piece) :
    (enclosed written ps).flatMap text = Text.enclose written (ps.flatMap text) := by
  cases written <;> simp [enclosed, Text.enclose]

theorem condition?_enclosed (written : Bool) (ps : List Piece) :
    (enclosed written ps).filterMap condition? = ps.filterMap condition? := by
  cases written <;> simp [enclosed, List.filterMap_cons]

theorem exists_concat_enclosed (written : Bool) {ps : List Piece}
    (h : ∃ qs p, ps = qs ++ [p] ∧ (p = closing ∨ ∃ c, p = condition c)) :
    ∃ qs p, enclosed written ps = qs ++ [p] ∧ (p = closing ∨ ∃ c, p = condition c) := by
  cases written with
  | false => exact h
  | true => exact ⟨opening :: ps, closing, rfl, Or.inl rfl⟩

end Piece

namespace BindRule

mutual

/-- The pieces of a rule, which stands below another one if asked to. -/
def pieces (below : Bool) : BindRule → List Piece
  | condition c => Piece.enclosed c.parenthesized [.condition c]
  | and os p => Piece.enclosed (p || below) (linkedPieces .and os).tail
  | or os p => Piece.enclosed (p || below) (linkedPieces .or os).tail
  | not o => pieces true o

def linkedPieces (c : Connective) : List BindRule → List Piece
  | [] => []
  | r :: rs => .link (if r.isNot then .andNot else c) :: pieces true r ++ linkedPieces c rs

end

mutual

theorem conditions_pieces (below : Bool) :
    ∀ r : BindRule, (r.pieces below).filterMap Piece.condition? = r.conditions
  | condition c => by simp [pieces, Piece.condition?_enclosed, conditions]
  | and os p => by
      rw [pieces, Piece.condition?_enclosed, conditions, ← conditions_linkedPieces .and os]
      cases os <;> simp [linkedPieces, List.filterMap_cons]
  | or os p => by
      rw [pieces, Piece.condition?_enclosed, conditions, ← conditions_linkedPieces .or os]
      cases os <;> simp [linkedPieces, List.filterMap_cons]
  | not o => by rw [pieces, conditions_pieces true o, conditions]

theorem conditions_linkedPieces (c : Connective) :
    ∀ rs : List BindRule, (linkedPieces c rs).filterMap Piece.condition? = conditionsOfAll rs
  | [] => by simp [linkedPieces, conditionsOfAll]
  | r :: rs => by
      simp [linkedPieces, List.filterMap_cons, conditionsOfAll, conditions_pieces true r,
        conditions_linkedPieces c rs]

end

/-- The text in front of an operand: the word of its connective, without the `NOT`. -/
def word : Connective → Text
  | .or => " OR ".toList
  | _ => " AND ".toList

/-! ## Placement -/

mutual

/-- Every group has an operand, and a negation only stands behind an `AND`. -/
def isPlaced : BindRule → Bool
  | condition _ => true
  | and os _ => !os.isEmpty && !(os.head?.map isNot).getD false && allPlaced os
  | or os _ => !os.isEmpty && !os.any isNot && allPlaced os
  | not o => !o.isNot && isPlaced o

def allPlaced : List BindRule → Bool
  | [] => true
  | r :: rs => isPlaced r && allPlaced rs

end

theorem allPlaced_cons_iff {r : BindRule} {rs : List BindRule} :
    allPlaced (r :: rs) = true ↔ r.isPlaced = true ∧ allPlaced rs = true := by
  rw [allPlaced, Bool.and_eq_true]

theorem isPlaced_and_iff {os : List BindRule} {p : Bool} :
    (and os p).isPlaced = true ↔
      ∃ r rs, os = r :: rs ∧ r.isNot = false ∧ r.isPlaced = true ∧ allPlaced rs = true := by
  cases os with
  | nil => simp [isPlaced]
  | cons r rs => simp [isPlaced, allPlaced_cons_iff]

theorem isPlaced_or_iff {os : List BindRule} {p : Bool} :
    (or os p).isPlaced = true ↔
      ∃ r rs, os = r :: rs ∧ r.isNot = false ∧ rs.any isNot = false ∧ r.isPlaced = true ∧
        allPlaced rs = true := by
  cases os with
  | nil => simp [isPlaced]
  | cons r rs => simp [isPlaced, allPlaced_cons_iff, and_assoc]

theorem isPlaced_not_iff {o : BindRule} :
    (not o).isPlaced = true ↔ o.isNot = false ∧ o.isPlaced = true := by
  rw [isPlaced, Bool.and_eq_true, Bool.not_eq_true']

theorem finding_eq_nil_iff {b : Bool} {fault : RuleFault} : finding b fault = [] ↔ b = false := by
  cases b <;> simp [finding]

mutual

theorem isPlaced_of_faults : ∀ r : BindRule, r.faults = [] → r.isPlaced = true
  | condition c, _ => rfl
  | and os p, h => by
      simp only [faults, List.append_eq_nil_iff, finding_eq_nil_iff] at h
      simp [isPlaced, h.1.1, h.1.2, allPlaced_of_faults os h.2]
  | or os p, h => by
      simp only [faults, List.append_eq_nil_iff, finding_eq_nil_iff] at h
      simp only [isPlaced, h.1.1, h.1.2, allPlaced_of_faults os h.2]
      rfl
  | not o, h => by
      simp only [faults, List.append_eq_nil_iff, finding_eq_nil_iff] at h
      simp [isPlaced, h.1, isPlaced_of_faults o h.2]

theorem allPlaced_of_faults : ∀ rs : List BindRule, faultsOfAll rs = [] → allPlaced rs = true
  | [], _ => rfl
  | r :: rs, h => by
      rw [faultsOfAll, List.append_eq_nil_iff] at h
      rw [allPlaced_cons_iff]
      exact ⟨isPlaced_of_faults r h.1, allPlaced_of_faults rs h.2⟩

end

/-! ## The text of pieces -/

/-- What stands between operands with this connective, and the text of the operands there. -/
theorem join_operandTexts {c : Connective} {r : BindRule} {rs : List BindRule} {first : Text}
    (hfirst : (r.pieces true).flatMap Piece.text = first)
    (hothers : (linkedPieces c rs).flatMap Piece.text = (operandTexts rs).flatMap (word c ++ ·)) :
    (linkedPieces c (r :: rs)).tail.flatMap Piece.text =
      Text.join (word c) (first :: operandTexts rs) := by
  rw [linkedPieces, List.cons_append, List.tail_cons, List.flatMap_append, hfirst, hothers,
    Text.join_cons]

mutual

/-- The text of a placed rule is the text of its pieces. -/
theorem text_pieces (below : Bool) :
    ∀ r : BindRule, r.isPlaced = true → r.isNot = false →
      (r.pieces below).flatMap Piece.text = Text.enclose (below && r.isOpenGroup) r.text
  | condition c, _, _ => by
      simp [pieces, Piece.text_enclosed, text, isOpenGroup, Text.enclose]
  | and [] p, hplaced, _ => by
      simp [isPlaced] at hplaced
  | and (r :: rs) p, hplaced, _ => by
      obtain ⟨_, _, hcons, hnot, hr, hrs⟩ := isPlaced_and_iff.1 hplaced
      obtain ⟨rfl, rfl⟩ := List.cons.inj hcons
      rw [pieces, Piece.text_enclosed, join_operandTexts (text_pieces true r hr hnot)
        (text_linkedPieces .and rs hrs (by simp) (by simp)), text, operandTexts]
      cases p <;> cases below <;> rfl
  | or [] p, hplaced, _ => by
      simp [isPlaced] at hplaced
  | or (r :: rs) p, hplaced, _ => by
      obtain ⟨_, _, hcons, hnot, hnots, hr, hrs⟩ := isPlaced_or_iff.1 hplaced
      obtain ⟨rfl, rfl⟩ := List.cons.inj hcons
      rw [pieces, Piece.text_enclosed, join_operandTexts (text_pieces true r hr hnot)
        (text_linkedPieces .or rs hrs (by simp) fun _ => hnots), text, operandTexts]
      cases p <;> cases below <;> rfl
  | not o, _, hnot => by cases hnot

theorem text_linkedPieces (c : Connective) :
    ∀ rs : List BindRule, allPlaced rs = true → c ≠ .andNot → (c = .or → rs.any isNot = false) →
      (linkedPieces c rs).flatMap Piece.text = (operandTexts rs).flatMap (word c ++ ·)
  | [], _, _, _ => by simp [linkedPieces, operandTexts]
  | r :: rs, hplaced, hc, hor => by
      obtain ⟨hr, hrs⟩ := allPlaced_cons_iff.1 hplaced
      have hothers := text_linkedPieces c rs hrs hc fun hc => by
        have hany := hor hc
        rw [List.any_cons, Bool.or_eq_false_iff] at hany
        exact hany.2
      rw [linkedPieces, operandTexts, List.cons_append, List.flatMap_cons, List.flatMap_append,
        hothers, List.flatMap_cons, ← List.append_assoc]
      congr 1
      cases hnot : r.isNot with
      | false =>
          rw [text_pieces true r hr hnot, Bool.true_and]
          cases c with
          | andNot => exact absurd rfl hc
          | _ => rfl
      | true =>
          -- The word `NOT` is written by the operand, but is part of the piece in front of it.
          cases r with
          | not o =>
              obtain ⟨ho, hpo⟩ := isPlaced_not_iff.1 hr
              rw [pieces, text_pieces true o hpo ho, Bool.true_and]
              cases c with
              | and => rfl
              | andNot => exact absurd rfl hc
              | or => simp [isNot] at hor
          | _ => cases hnot

end

mutual

/-- The last piece of a placed rule is a parenthesis or a condition. -/
theorem exists_concat_pieces (below : Bool) :
    ∀ r : BindRule, r.isPlaced = true →
      ∃ ps p, r.pieces below = ps ++ [p] ∧ (p = .closing ∨ ∃ c, p = .condition c)
  | condition c, _ => by
      rw [pieces]
      exact Piece.exists_concat_enclosed _ ⟨[], .condition c, rfl, Or.inr ⟨c, rfl⟩⟩
  | and os p, hplaced => by
      simp only [isPlaced, Bool.and_eq_true, Bool.not_eq_true', List.isEmpty_eq_false_iff] at hplaced
      rw [pieces]
      exact Piece.exists_concat_enclosed _ (exists_concat_tail .and os hplaced.2 hplaced.1.1)
  | or os p, hplaced => by
      simp only [isPlaced, Bool.and_eq_true, Bool.not_eq_true', List.isEmpty_eq_false_iff] at hplaced
      rw [pieces]
      exact Piece.exists_concat_enclosed _ (exists_concat_tail .or os hplaced.2 hplaced.1.1)
  | not o, hplaced => by
      rw [pieces]
      exact exists_concat_pieces true o (isPlaced_not_iff.1 hplaced).2

theorem exists_concat_tail (c : Connective) :
    ∀ rs : List BindRule, allPlaced rs = true → rs ≠ [] →
      ∃ ps p, (linkedPieces c rs).tail = ps ++ [p] ∧ (p = .closing ∨ ∃ c, p = .condition c)
  | [], _, hne => absurd rfl hne
  | r :: rs, hplaced, _ => by
      obtain ⟨hr, hrs⟩ := allPlaced_cons_iff.1 hplaced
      have hothers := exists_concat_tail c rs hrs
      have hfirst := exists_concat_pieces true r hr
      rw [linkedPieces, List.cons_append, List.tail_cons]
      cases rs with
      | nil => simpa [linkedPieces] using hfirst
      | cons r' rs =>
          obtain ⟨ps, p, heq, hp⟩ := hothers (List.cons_ne_nil r' rs)
          refine ⟨pieces true r ++ .link (if r'.isNot then .andNot else c) :: ps, p, ?_, hp⟩
          rw [linkedPieces, List.cons_append, List.tail_cons] at heq
          rw [linkedPieces, List.cons_append, heq]
          simp

end

/-- A written rule ends with a parenthesis or a quote. -/
theorem exists_concat_text {r : BindRule} (hplaced : r.isPlaced = true) (hnot : r.isNot = false) :
    ∃ front c, r.text = front ++ [c] ∧ (c = ')' ∨ c = '"') := by
  have htext := text_pieces false r hplaced hnot
  obtain ⟨ps, p, heq, hp⟩ := exists_concat_pieces false r hplaced
  rw [heq, List.flatMap_append, List.flatMap_singleton] at htext
  replace htext : r.text = ps.flatMap Piece.text ++ p.text := htext.symm
  rcases hp with rfl | ⟨c, rfl⟩
  · exact ⟨_, ')', htext, Or.inl rfl⟩
  · refine ⟨ps.flatMap Piece.text ++ (c.keyword.name ++ ' ' :: c.op.symbol ++ ' ' :: '"' ::
      c.value.text), '"', ?_, Or.inr rfl⟩
    rw [htext, Piece.text_condition, Condition.text, Text.quote]
    simp

end BindRule

/-! ## Scanning pieces -/

namespace BindKeyword

theorem name_ne_nil (k : BindKeyword) : k.name ≠ [] := by
  cases k <;> decide

theorem isBareChar_of_mem_name (k : BindKeyword) :
    ∀ c ∈ k.name, BindToken.isBareChar c = true :=
  Text.forall_mem_of_all (by cases k <;> decide)

theorem kindOfWord_name (k : BindKeyword) : BindToken.kindOfWord k.name = .value false := by
  cases k <;> rfl

theorem parse_name (k : BindKeyword) : BindKeyword.parse k.name = .ok k := by
  cases k <;> rfl

end BindKeyword

namespace BindToken

/-- A word between blanks is a token. -/
theorem scan_spaced_word {word : Text} (hne : word ≠ []) (hword : ∀ c ∈ word, isBareChar c = true)
    (rest : Text) :
    reader.scan (word ++ ' ' :: rest) =
      (reader.scan rest).map (⟨kindOfWord word, word⟩ :: ·) := by
  rw [scan_word hne hword (by simp; decide), reader.scan_separator (by decide)]

end BindToken

namespace Condition

/-- What a condition writes in front of its value. -/
def front (c : Condition) : Text :=
  c.keyword.name ++ ' ' :: c.op.symbol ++ [' ']

theorem text_append (c : Condition) (rest : Text) :
    c.text ++ rest = c.front ++ '"' :: (c.value.text ++ '"' :: rest) := by
  simp [text, front, Text.quote]

theorem scan_front (c : Condition) (t : Text) :
    BindToken.reader.scan (c.front ++ t) =
      (BindToken.reader.scan t).map
        ([⟨.value false, c.keyword.name⟩, ⟨.operator c.op, c.op.symbol⟩] ++ ·) := by
  have hfront : c.front ++ t = c.keyword.name ++ ' ' :: (c.op.symbol ++ ' ' :: t) := by
    simp [front]
  rw [hfront, BindToken.scan_spaced_word c.keyword.name_ne_nil c.keyword.isBareChar_of_mem_name,
    BindToken.scan_operator, BindToken.reader.scan_separator (by decide),
    c.keyword.kindOfWord_name]
  cases BindToken.reader.scan t <;> rfl

end Condition

namespace Piece

open BindToken

theorem scan_link (c : Connective) (rest : Text) :
    reader.scan ((link c).text ++ rest) = (reader.scan rest).map ((link c).scanned ++ ·) := by
  have hword (word : Text) (hne : word ≠ []) (hbare : ∀ c ∈ word, isBareChar c = true)
      (rest : Text) : reader.scan (' ' :: word ++ ' ' :: rest) =
        (reader.scan rest).map (⟨kindOfWord word, word⟩ :: ·) := by
    rw [List.cons_append, reader.scan_separator (by decide), scan_spaced_word hne hbare]
  cases c with
  | and => exact hword "AND".toList (by decide) (Text.forall_mem_of_all (by decide)) rest
  | andNot =>
      refine (hword "AND".toList (by decide) (Text.forall_mem_of_all (by decide))
        ("NOT".toList ++ ' ' :: rest)).trans ?_
      rw [scan_spaced_word (by decide) (Text.forall_mem_of_all (by decide))]
      cases reader.scan rest <;> rfl
  | or => exact hword "OR".toList (by decide) (Text.forall_mem_of_all (by decide)) rest

theorem scan_condition {c : Condition} (hclosed : c.value.text.isClosed = true) (rest : Text) :
    reader.scan (c.text ++ rest) = (reader.scan rest).map ((condition c).scanned ++ ·) := by
  rw [c.text_append, c.scan_front, scan_quote (Text.closeRun?_of_isClosed hclosed rest)]
  cases reader.scan rest <;> rfl

theorem scan_piece {p : Piece} (hclosed : ∀ c, p = condition c → c.value.text.isClosed = true)
    (rest : Text) :
    reader.scan (p.text ++ rest) = (reader.scan rest).map (p.scanned ++ ·) := by
  cases p with
  | opening => exact scan_openParen rest
  | closing => exact scan_closeParen rest
  | link c => exact scan_link c rest
  | condition c => exact scan_condition (hclosed c rfl) rest

/-- Pieces with closed values leave their own tokens. -/
theorem scan_pieces {ps : List Piece}
    (hclosed : ∀ c, condition c ∈ ps → c.value.text.isClosed = true) (rest : Text) :
    reader.scan (ps.flatMap text ++ rest) = (reader.scan rest).map (ps.flatMap scanned ++ ·) := by
  induction ps with
  | nil => cases h : reader.scan rest <;> simp [h, Except.map]
  | cons p ps ih =>
      have hhead : ∀ c, p = condition c → c.value.text.isClosed = true := by
        rintro c rfl
        exact hclosed c (by simp)
      have htail := ih fun c hc => hclosed c (List.mem_cons_of_mem p hc)
      rw [List.flatMap_cons, List.append_assoc, scan_piece hhead, htail, List.flatMap_cons]
      cases reader.scan rest <;> simp [Except.map]

theorem joinNots_cons {a : BindToken} {ts : List BindToken}
    (h : a.kind = .and → ∀ t ∈ ts.head?, t.kind ≠ .not) : joinNots (a :: ts) = a :: joinNots ts := by
  cases ts with
  | nil => rfl
  | cons n ts =>
      have hne : ¬(a.kind = .and ∧ n.kind = .not) := fun hkinds => h hkinds.1 n rfl hkinds.2
      rw [joinNots, if_neg (by simpa using hne)]

theorem joinNots_append {us : List BindToken} (hus : ∀ t ∈ us, t.kind ≠ .and)
    (ts : List BindToken) : joinNots (us ++ ts) = us ++ joinNots ts := by
  induction us with
  | nil => rfl
  | cons u us ih =>
      have hu : u.kind ≠ .and := hus u (by simp)
      rw [List.cons_append, joinNots_cons fun hand => absurd hand hu,
        ih fun t ht => hus t (List.mem_cons_of_mem u ht), List.cons_append]

/-- No piece starts with a `NOT`. -/
theorem head?_scanned (ps : List Piece) {ts : List BindToken}
    (hts : ∀ t ∈ ts.head?, t.kind ≠ .not) :
    ∀ t ∈ (ps.flatMap scanned ++ ts).head?, t.kind ≠ .not := by
  cases ps with
  | nil => exact hts
  | cons p ps =>
      intro t ht
      rcases p with _ | _ | (_ | _ | _) | c <;>
        (simp [scanned] at ht; subst ht; simp)

/-- Joining each `NOT` with the `AND` in front of it leaves the tokens of the pieces. -/
theorem joinNots_scanned (ps : List Piece) {ts : List BindToken}
    (hts : ∀ t ∈ ts.head?, t.kind ≠ .not) :
    joinNots (ps.flatMap scanned ++ ts) = ps.flatMap tokens ++ joinNots ts := by
  induction ps with
  | nil => rfl
  | cons p ps ih =>
      rw [List.flatMap_cons, List.flatMap_cons, List.append_assoc, List.append_assoc, ← ih]
      have hnext := head?_scanned ps hts
      rcases p with _ | _ | (_ | _ | _) | c
      case link.andNot => rfl
      case link.and => exact joinNots_cons fun _ => hnext
      all_goals exact joinNots_append (by simp [scanned]) _

theorem mem_filterMap_condition? {c : Condition} {ps : List Piece} :
    c ∈ ps.filterMap condition? ↔ condition c ∈ ps := by
  rw [List.mem_filterMap]
  constructor
  · rintro ⟨p, hp, hc⟩
    cases p with
    | condition d => cases hc; exact hp
    | _ => cases hc
  · intro hc
    exact ⟨condition c, hc, rfl⟩

theorem text_ne_nil_of_mem_tokens {ps : List Piece}
    (hne : ∀ c, condition c ∈ ps → c.value.text ≠ []) :
    ∀ t ∈ ps.flatMap tokens, t.text ≠ [] := by
  intro t ht
  obtain ⟨p, hp, ht⟩ := List.mem_flatMap.1 ht
  rcases p with _ | _ | (_ | _ | _) | c
  case condition =>
    simp only [tokens, scanned, List.mem_cons, List.not_mem_nil, or_false] at ht
    rcases ht with rfl | rfl | rfl
    · exact c.keyword.name_ne_nil
    · cases c.op <;> decide
    · exact hne c hp
  all_goals
    simp only [tokens, scanned, List.mem_cons, List.not_mem_nil, or_false] at ht
    subst ht
    decide

/-- The tokens of the text of pieces are the tokens of the pieces. -/
theorem tokens_pieces {ps : List Piece}
    (hclosed : ∀ c, condition c ∈ ps → c.value.text.isClosed = true)
    (hne : ∀ c, condition c ∈ ps → c.value.text ≠ []) :
    BindToken.tokens (ps.flatMap text) = .ok (ps.flatMap tokens) := by
  have hscan : reader.scan (ps.flatMap text) = .ok (ps.flatMap scanned) := by
    have hpieces := scan_pieces hclosed []
    rw [List.append_nil, TokenReader.scan_nil] at hpieces
    rw [hpieces, Except.map, List.append_nil]
  have hjoined : joinNots (ps.flatMap scanned) = ps.flatMap tokens := by
    simpa [joinNots] using @joinNots_scanned ps [] (by simp)
  exact tokens_eq_ok_iff.2 ⟨_, hscan, hjoined, text_ne_nil_of_mem_tokens hne⟩

end Piece

namespace BindRule

/-- The tokens of a written rule are those of its pieces. -/
theorem tokens_text {r : BindRule} (hplaced : r.isPlaced = true) (hnot : r.isNot = false)
    (hclosed : ∀ c ∈ r.conditions, c.value.text.isClosed = true)
    (hne : ∀ c ∈ r.conditions, c.value.text ≠ []) :
    BindToken.tokens r.text = .ok ((r.pieces false).flatMap Piece.tokens) := by
  have hmem (c : Condition) (hc : .condition c ∈ r.pieces false) : c ∈ r.conditions := by
    rw [← conditions_pieces false r]
    exact Piece.mem_filterMap_condition?.2 hc
  have htext : r.text = (r.pieces false).flatMap Piece.text := by
    rw [text_pieces false r hplaced hnot]
    rfl
  rw [htext]
  exact Piece.tokens_pieces (fun c hc => hclosed c (hmem c hc)) fun c hc => hne c (hmem c hc)

end BindRule

end DirectoryAccess
