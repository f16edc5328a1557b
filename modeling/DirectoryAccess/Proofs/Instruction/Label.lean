import DirectoryAccess.Proofs.Instruction.Assembly
import DirectoryAccess.Proofs.Quoted
import DirectoryAccess.Proofs.Value.Start

/-!
# Labels read back

The verdict on a label looks for quotes that are not escaped, but not at what the
end of the label escapes.  A label that ends with an odd number of backslashes
takes in the quote behind it and all that is written up to the first value of a
condition, and is refused there.  Every other label that passes the verdict is
read back, in every instruction that is read back with some label at all.
-/

namespace DirectoryAccess

/-- In front of the first of the conditions, no piece writes a quote. -/
theorem Piece.exists_first_condition {ps : List Piece} (h : ps.filterMap condition? ≠ []) :
    ∃ front c rest, ps = front ++ condition c :: rest ∧ ∀ d ∈ front.flatMap text, IsPassed d := by
  induction ps with
  | nil => exact absurd rfl h
  | cons p ps ih =>
      cases hp : p.condition? with
      | some c =>
          obtain rfl : p = condition c := by
            cases p <;> simp_all
          exact ⟨[], c, ps, rfl, by simp⟩
      | none =>
          rw [List.filterMap_cons_none hp] at h
          obtain ⟨front, c, rest, rfl, hfront⟩ := ih h
          refine ⟨p :: front, c, rest, rfl, ?_⟩
          rw [List.flatMap_cons, List.forall_mem_append]
          exact ⟨isPassed_of_mem_text hp, hfront⟩

theorem BindRule.conditions_ne_nil : ∀ r : BindRule, r.isPlaced = true → r.conditions ≠ []
  | condition c, _ => by simp [conditions]
  | and [] p, h => by cases h
  | and (r :: rs) p, h => by
      obtain ⟨_, _, heq, -, hr, -⟩ := isPlaced_and_iff.1 h
      cases heq
      simp [conditions, conditionsOfAll, conditions_ne_nil r hr]
  | or [] p, h => by cases h
  | or (r :: rs) p, h => by
      obtain ⟨_, _, heq, -, -, hr, -⟩ := isPlaced_or_iff.1 h
      cases heq
      simp [conditions, conditionsOfAll, conditions_ne_nil r hr]
  | not o, h => by
      rw [conditions]
      exact conditions_ne_nil o (isPlaced_not_iff.1 h).2

/-- A policy that is read from its own text writes plain text up to the quote of its first value. -/
theorem Policy.exists_first_value {limit : Nat} {p : Policy} (h : parseWith limit p.text = .ok p) :
    ∃ front value : Text, p.text = front ++ '"' :: value ∧ '"' ∉ front ∧ '\\' ∉ front ∧
      value.StartsSolid := by
  obtain ⟨hstatements, hne⟩ := parseWith_eq_ok_iff.1 h
  obtain ⟨s, ss, hsplit⟩ := List.exists_cons_of_ne_nil hne
  have hs : s ∈ p.statements := by simp [hsplit]
  obtain ⟨segment, -, hsegment⟩ := Outcome.exists_of_mem_right hstatements hs
  obtain ⟨_, rule, -, -, hrule⟩ := Statement.parseWith_eq_ok_iff.1 hsegment
  have hform : s.bindRule.IsRootForm := Statement.rootForm_of_parseWith hrule
  have hconditions := BindRule.conditions_ne_nil s.bindRule hform.isPlaced
  rw [← BindRule.conditions_pieces false] at hconditions
  obtain ⟨front, c, rest, hpieces, hfront⟩ := Piece.exists_first_condition hconditions
  have hc : c ∈ s.bindRule.conditions := by
    rw [← BindRule.conditions_pieces false, Piece.mem_filterMap_condition?, hpieces]
    simp
  have hvalue := ((parseWith_text_iff h).1 h s hs c hc).value
  have hplain : ∀ d ∈ s.permission.text ++ [' '] ++ (front.flatMap Piece.text ++ c.front),
      IsPassed d :=
    List.forall_mem_append.2 ⟨s.permission.isPassed_of_mem_spaced,
      List.forall_mem_append.2 ⟨hfront, Condition.isPassed_of_mem_front⟩⟩
  have htext : p.text = s.permission.text ++ [' '] ++ (front.flatMap Piece.text ++ c.front) ++
      '"' :: (c.value.text ++ '"' :: (rest.flatMap Piece.text ++
        ';' :: (ss.map Statement.text).flatMap ([' '] ++ ·))) := by
    rw [text, hsplit, List.map_cons, Text.join_cons, Statement.text_append_of_pieces hform hpieces]
    simp only [List.append_assoc, List.cons_append, List.nil_append]
  exact ⟨_, _, htext, fun hmem => (hplain '"' hmem).2.1 rfl, fun hmem => (hplain '\\' hmem).1 rfl,
    (Value.startsSolid_of_parseBind hvalue).append _⟩

namespace Instruction

/-- A label that escapes its closing quote goes on up to the next quote. -/
theorem readLabel_of_escaping {label front : Text} (hquotes : Text.quotesEscaped false label = true)
    (hescape : Text.escaping false label = true) (hquote : '"' ∉ front) (hslash : '\\' ∉ front)
    (rest : Text) :
    readLabel (" acl ".toList ++ Text.quote label ++ (front ++ '"' :: rest)) =
      .ok (label ++ '"' :: front, rest) := by
  have hnext : Text.cutQuote? (front ++ '"' :: rest) = some (front, rest) :=
    Text.cutQuote?_eq_some_iff.2 ⟨rfl, Text.quotesEscaped_of_not_mem hquote false,
      Text.escaping_of_not_mem hslash⟩
  have hblank : Text.isBlankText (label ++ '"' :: front) = false := by
    rw [← Bool.not_eq_true, Text.isBlankText_iff_forall]
    intro hall
    cases hall '"' (by simp)
  rw [acl_quote_append]
  refine readLabel_of_cutQuote? ?_ hblank
  rw [Text.cutQuote?_append_escaped hquotes hescape, hnext, Option.map_some]

/-- Where a value starts, no label has ended. -/
theorem readBody_of_startsSolid {t : Text} (h : t.StartsSolid) (label : Text) :
    readBody label t = .error (.grammar (.noLabelEnd label)) := by
  obtain ⟨c, rest, rfl, hblank, hsemicolon⟩ := h
  have hstart : Text.trimStart (c :: rest) = c :: rest :=
    Text.trimStart_eq_self fun d hd => Option.some.inj hd ▸ hblank
  have hstrip : Text.strip? [';'] (c :: rest) = none := if_neg hsemicolon.symm
  rw [readBody, hstart, hstrip]

/-- All but the label is read from the text that is written for it. -/
structure PartsReadBack (limit : Nat) (i : Instruction) : Prop where
  target : IsTarget i.targetText i.targetRule
  lacks : Text.Lacks versionMarker i.targetText
  policy : Policy.parseWith limit i.policy.text = .ok i.policy

theorem partsReadBack_of_parseWith {limit : Nat} {i : Instruction}
    (h : parseWith limit i.text = .ok i) : i.PartsReadBack limit := by
  obtain ⟨htarget, hpolicy⟩ := (parseWith_text_iff_parts h).1 h
  refine ⟨?_, lacks_targetText h, hpolicy⟩
  unfold targetText
  cases hr : i.targetRule with
  | none => exact Or.inl ⟨rfl, rfl⟩
  | some r => exact Or.inr ⟨r, htarget r hr, (targetRule_of_parseWith h hr).1, rfl⟩

def relabeled (i : Instruction) (label : Text) : Instruction :=
  { i with label := label }

namespace PartsReadBack

variable {limit : Nat} {i : Instruction}

theorem relabeled (h : i.PartsReadBack limit) (label : Text) :
    (i.relabeled label).PartsReadBack limit :=
  ⟨h.target, h.lacks, h.policy⟩

theorem parseWith_text (h : i.PartsReadBack limit) (hclosed : i.label.isClosed = true)
    (hblank : Text.isBlankText i.label = false) : parseWith limit i.text = .ok i := by
  rw [text_eq]
  exact parseWith_assembled h.target h.lacks hclosed hblank h.policy

/-- The error shows how far the label went. -/
theorem parseWith_text_of_escaping (h : i.PartsReadBack limit)
    (hquotes : Text.quotesEscaped false i.label = true)
    (hescape : Text.escaping false i.label = true) :
    ∃ taken, parseWith limit i.text =
      .error (.grammar (.noLabelEnd (i.label ++ '"' :: taken))) := by
  obtain ⟨front, value, htext, hquote, hslash, hstarts⟩ := Policy.exists_first_value h.policy
  have hread : readLabel (" acl ".toList ++ Text.quote i.label ++
      ("; ".toList ++ i.policy.text ++ [')'])) =
        .ok (i.label ++ '"' :: ("; ".toList ++ front), value ++ [')']) := by
    have hplain := @readLabel_of_escaping i.label ("; ".toList ++ front) hquotes hescape
      (by simpa using hquote) (by simpa using hslash) (value ++ [')'])
    rw [htext]
    simpa using hplain
  have hwhole : i.text = assembled i.targetText i.label i.policy.text := text_eq i
  have hbody := readBody_of_startsSolid (hstarts.append [')'])
    (i.label ++ '"' :: ("; ".toList ++ front))
  refine ⟨"; ".toList ++ front, ?_⟩
  rw [hwhole, parseWith_assembled_eq h.target h.lacks, hread]
  change readBody (i.label ++ '"' :: ("; ".toList ++ front)) (value ++ [')']) >>= _ = _
  rw [hbody]
  rfl

end PartsReadBack

/-- What passes for a label is not blank, and its quotes are escaped. -/
theorem labelFaults_eq_nil_iff {label : Text} :
    labelFaults label = [] ↔
      Text.isBlankText label = false ∧ Text.quotesEscaped false label = true := by
  rw [labelFaults, ← Text.hasNoOpenQuote_eq]
  cases Text.isBlankText label <;> cases Text.hasNoOpenQuote label <;> simp

theorem labelFaults_of_check {i : Instruction} (h : i.check = .ok ()) :
    labelFaults i.label = [] := by
  rw [check, Error.verdict_eq_ok_iff, List.append_eq_nil_iff, List.append_eq_nil_iff] at h
  exact h.1.1

/--
If an instruction is read from its own text under the label `x`, then under a label that passes the
verdict it is read from its own text exactly if the label ends with an even number of backslashes.
With an odd number, reading fails, because the label takes in its closing quote.
-/
theorem passing_label_reads_back_iff {limit : Nat} {i : Instruction} {label : Text}
    (hletter : parseWith limit (i.relabeled "x".toList).text = .ok (i.relabeled "x".toList))
    (hcheck : (i.relabeled label).check = .ok ()) :
    (parseWith limit (i.relabeled label).text = .ok (i.relabeled label) ↔
      Text.trailingBackslashes label % 2 = 0) ∧
    (Text.trailingBackslashes label % 2 = 1 →
      ∃ taken, parseWith limit (i.relabeled label).text =
        .error (.grammar (.noLabelEnd (label ++ '"' :: taken)))) := by
  have hparts : (i.relabeled label).PartsReadBack limit :=
    (partsReadBack_of_parseWith hletter).relabeled label
  obtain ⟨hblank, hquotes⟩ := labelFaults_eq_nil_iff.1 (labelFaults_of_check hcheck)
  have hclosed := (Text.endsAtQuote_of_quotesEscaped hquotes).isClosed
  have hodd (h : Text.trailingBackslashes label % 2 = 1) :
      ∃ taken, parseWith limit (i.relabeled label).text =
        .error (.grammar (.noLabelEnd (label ++ '"' :: taken))) :=
    hparts.parseWith_text_of_escaping hquotes ((Text.trailingBackslashes_odd_iff label).1 h)
  refine ⟨⟨fun hread => ?_, fun heven => ?_⟩, hodd⟩
  · by_contra hne
    obtain ⟨taken, herror⟩ := hodd (by omega)
    rw [hread] at herror
    cases herror
  · exact hparts.parseWith_text (hclosed.2 heven) hblank

/-- The instruction that lets everyone read. -/
def lettered : Instruction :=
  ⟨none, "x".toList, openToAll⟩

theorem lettered_partsReadBack (limit : Nat) : lettered.PartsReadBack limit :=
  ⟨Or.inl ⟨rfl, rfl⟩, .nil (by decide), parseWith_openToAll⟩

theorem parseWith_lettered (limit : Nat) :
    parseWith limit (lettered.relabeled "x".toList).text = .ok (lettered.relabeled "x".toList) :=
  (lettered_partsReadBack limit).parseWith_text (Text.isClosed_iff.2 ⟨by decide, by decide⟩)
    (by decide)

/-- A label that ends with one backslash passes the verdict and is not read from the text. -/
theorem slashed_label_is_not_read :
    parse (lettered.relabeled "x".toList).text = .ok (lettered.relabeled "x".toList) ∧
      (lettered.relabeled "a\\".toList).check = .ok () ∧
      parse (lettered.relabeled "a\\".toList).text =
        .error (.grammar (.noLabelEnd "a\\\"; allow(read) userdn = ".toList)) :=
  ⟨parseWith_lettered defaultDepth, rfl, rfl⟩

theorem passing_label_reads_back_iff_of_slashed :
    parseWith 0 (lettered.relabeled "a\\\\".toList).text =
        .ok (lettered.relabeled "a\\\\".toList) ∧
      ∃ taken, parseWith 0 (lettered.relabeled "a\\".toList).text =
        .error (.grammar (.noLabelEnd ("a\\".toList ++ '"' :: taken))) :=
  ⟨(passing_label_reads_back_iff (parseWith_lettered 0) rfl).1.2 (by decide),
    (passing_label_reads_back_iff (parseWith_lettered 0) rfl).2 (by decide)⟩

end Instruction

end DirectoryAccess
