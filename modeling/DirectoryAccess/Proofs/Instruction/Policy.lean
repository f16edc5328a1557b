import DirectoryAccess.Proofs.Instruction.Statement

/-!
# Which policies read back

A written policy holds as many comparisons as its conditions weigh, and each
segment holds at least as many as the conditions read from it.  So none is to
spare for a value that overruns its quotes, and a policy reads back exactly if
every condition does.
-/

namespace DirectoryAccess

/-- The permission of a statement adds nothing to a measure. -/
theorem Permission.isPlain_of_mem_spaced (p : Permission) :
    ∀ c ∈ p.text ++ [' '], Text.isPlain c = true := by
  intro c hc
  simp only [text_eq, List.mem_append, List.mem_singleton] at hc
  rcases hc with (hc | rfl) | rfl
  · rcases isAlpha_or_of_mem_front hc with h | rfl | rfl
    · exact Text.isPlain_of_isAlpha h
    · decide
    · decide
  · decide
  · decide

namespace Statement

/-- The number of characters of comparison operators in the conditions. -/
def weight (s : Statement) : Nat :=
  (s.bindRule.conditions.map Condition.weight).sum

theorem comparisons_text {s : Statement} (hform : s.bindRule.IsRootForm) :
    Text.comparisons s.text = s.weight := by
  have hsemicolon : Text.isPlain ';' = true := by decide
  have hbody : s.body = (s.permission.text ++ [' ']) ++ s.bindRule.text := by simp [body]
  rw [text_eq, Text.comparisons_isMeasure.append_singleton hsemicolon, hbody,
    Text.comparisons_isMeasure.plain_append s.permission.isPlain_of_mem_spaced,
    ← hform.text_pieces, Piece.comparisons_text, BindRule.conditions_pieces, weight]

/-- Reading gives a statement no weight that its text does not have. -/
theorem weight_le_of_parseWith {limit : Nat} {t : Text} {s : Statement}
    (h : parseWith limit t = .ok s) : s.weight ≤ Text.comparisons t := by
  obtain ⟨front, rule, hcut, -, hrule⟩ := parseWith_eq_ok_iff.1 h
  obtain ⟨ts, htokens, hderived⟩ := BindRule.isRule_of_parseWith hrule
  obtain ⟨found, hscan, rfl, -⟩ := BindToken.tokens_eq_ok_iff.1 htokens
  have hspelled := BindToken.isSpelled_joinNots (BindToken.isSpelled_of_scan hscan)
  have hle := hderived.leaves.weight_le hspelled
  rw [BindRule.tokenWeight, BindToken.comparisons_joinNots, BindToken.comparisons_of_scan hscan,
    List.map_map] at hle
  have hparts := Text.comparisons_isMeasure.cut? (by decide) hcut
  rw [Text.comparisons_isMeasure.trim] at hparts
  rw [hparts]
  exact hle.trans (Nat.le_add_left _ _)

variable {s : Statement} {ps qs : List Piece} {c : Condition}

/-- The text of a statement up to the value of one of its conditions, and behind it. -/
theorem text_append_of_pieces (hform : s.bindRule.IsRootForm)
    (hpieces : s.bindRule.pieces false = ps ++ .condition c :: qs) (rest : Text) :
    s.text ++ rest = s.permission.text ++ ' ' :: (ps.flatMap Piece.text ++ (c.front ++ '"' ::
      (c.value.text ++ '"' :: (qs.flatMap Piece.text ++ ';' :: rest)))) := by
  rw [text_eq, body, ← hform.text_pieces, hpieces, List.flatMap_append, List.flatMap_cons,
    Piece.text_condition, c.text_append]
  simp

theorem isGuarded_text (hform : s.bindRule.IsRootForm) {rest : Text} (hrest : rest.IsGuarded) :
    Text.IsGuarded (' ' :: (s.text ++ rest)) := by
  have hpassed : ∀ c ∈ ' ' :: (s.permission.text ++ [' ']), IsPassed c :=
    List.forall_mem_cons.2 ⟨by decide, s.permission.isPassed_of_mem_spaced⟩
  have hquotes : Text.quotesEscaped false (' ' :: (s.permission.text ++ [' '])) = true :=
    Text.quotesEscaped_of_not_mem (fun hmem => (hpassed _ hmem).2.1 rfl) false
  have hescape : Text.escaping false (' ' :: (s.permission.text ++ [' '])) = false :=
    Text.escaping_of_not_mem fun hmem => (hpassed _ hmem).1 rfl
  have hend : Text.IsGuarded ([';'] ++ rest) := hrest.append rfl rfl
  have hrule := Piece.isGuarded_pieces (s.bindRule.pieces false) hend
  rw [hform.text_pieces] at hrule
  have hall := hrule.append hquotes hescape
  simpa [text] using hall

/-- The first segment of statements reaches behind the quote that opens the first open value. -/
theorem exists_segment (p : Permission)
    (hclosed : ∀ d, .condition d ∈ ps → d.value.text.isClosed = true) (c : Condition)
    (value : Text) :
    ∃ u segments, Policy.segments
        (p.text ++ ' ' :: (ps.flatMap Piece.text ++ (c.front ++ '"' :: value))) =
        (p.text ++ ' ' :: (ps.flatMap Piece.text ++ (c.front ++ '"' :: u))) :: segments ∧
      u <+: value := by
  obtain ⟨part, parts, hparts⟩ := Text.exists_splitUnquotedFrom ';' true value
  have hpart : part <+: value := by
    rw [← Text.join_splitUnquotedFrom ';' true value, hparts, Text.join_cons]
    exact List.prefix_append _ _
  have hquote : Text.splitUnquotedFrom ';' false ('"' :: value) = ('"' :: part) :: parts := by
    rw [Text.splitUnquotedFrom_quote, Bool.not_false, hparts, Text.consPart]
  have hfront : Text.splitUnquotedFrom ';' false (c.front ++ '"' :: value) = _ :=
    Text.splitUnquotedFrom_append Condition.isPassed_of_mem_front hquote
  have hrule := Piece.splitUnquotedFrom_pieces hclosed hfront
  have hall := Text.splitUnquotedFrom_append p.isPassed_of_mem_spaced hrule
  rw [List.append_assoc, List.append_assoc, List.singleton_append, List.singleton_append] at hall
  -- Trimming takes white space off the end only.
  have htrim : Text.trim (p.text ++ ' ' :: (ps.flatMap Piece.text ++ (c.front ++ '"' :: part))) =
      p.text ++ ' ' :: (ps.flatMap Piece.text ++ (c.front ++ '"' :: Text.trimEnd part)) := by
    cases hpermission : p.text with
    | nil => simp [Permission.text] at hpermission
    | cons e es =>
        have he : Text.isBlank e = false := by
          refine p.isTrimmed_text.1 e ?_
          rw [hpermission]
          rfl
        have hsplit := Text.trim_cons_append he (d := '"') (by decide)
          (es ++ ' ' :: (ps.flatMap Piece.text ++ c.front)) part
        simpa using hsplit
  refine ⟨Text.trimEnd part, (parts.map Text.trim).filter fun t => !t.isEmpty, ?_,
    (Text.trimEnd_isPrefix part).trans hpart⟩
  rw [Policy.segments, Text.splitUnquoted, hall, List.map_cons, htrim,
    List.filter_cons_of_pos (by simp)]

/-- A statement with an open value weighs less than the segment that it is read from. -/
theorem weight_lt_of_not_isClosed {limit : Nat} (hform : s.bindRule.IsRootForm)
    (hopen : ¬s.IsClosed) {rest segment : Text} {segments : List Text} (hrest : rest.IsGuarded)
    (hsegments : Policy.segments (s.text ++ rest) = segment :: segments)
    (hread : parseWith limit segment = .ok s) : s.weight < Text.comparisons segment := by
  have hpieces : ¬∀ c, .condition c ∈ s.bindRule.pieces false → c.value.text.isClosed = true := by
    refine mt (fun hall c hc => hall c ?_) hopen
    rw [← Piece.mem_filterMap_condition?, BindRule.conditions_pieces]
    exact hc
  -- The segment ends inside the first open value, or where a later quote closes it.
  obtain ⟨ps, c, qs, hsplit, hps, hc⟩ := Piece.exists_first_open hpieces
  obtain ⟨u, segments', hsegment, hu⟩ := exists_segment s.permission hps c
    (c.value.text ++ '"' :: (qs.flatMap Piece.text ++ ';' :: rest))
  rw [← text_append_of_pieces hform hsplit, hsegments, List.cons.injEq] at hsegment
  obtain ⟨rfl, -⟩ := hsegment
  have hend : Text.IsGuarded ([';'] ++ rest) := hrest.append rfl rfl
  have hbehind := Piece.isGuarded_pieces qs hend
  have hstart : s.permission.text ++ ' ' :: (ps.flatMap Piece.text ++ (c.front ++ '"' :: u)) =
      s.permission.front ++ ')' :: ' ' :: (ps.flatMap Piece.text ++ (c.front ++ '"' :: u)) := by
    simp [Permission.text_eq]
  obtain ⟨front, rule, hcut, -, hrule⟩ := parseWith_eq_ok_iff.1 hread
  rw [Policy.trim_of_mem_segments (hsegments ▸ List.mem_cons_self), hstart,
    Text.cut?_append_cons s.permission.closeParen_not_mem_front] at hcut
  cases hcut
  rw [BindRule.parseWith_blank_cons_eq_ok_iff] at hrule
  obtain ⟨ts, htokens, hderived⟩ := BindRule.isRule_of_parseWith hrule
  obtain ⟨found, hscan, rfl, -⟩ := BindToken.tokens_eq_ok_iff.1 htokens
  have hchain := BindRule.isChain_pieces false s.bindRule
  have hkeys : (s.bindRule.conditions.map Condition.bare).map Condition.key =
      ((s.bindRule.pieces false).filterMap Piece.condition?).map Condition.key := by
    rw [BindRule.conditions_pieces, List.map_map]
    rfl
  rw [hsplit] at hchain hkeys
  have hlt := Piece.weight_lt_of_overrun hchain hps hc hbehind hu hscan hderived.leaves hkeys
  rw [List.map_map] at hlt
  have hweight := Text.comparisons_isMeasure.plain_append s.permission.isPlain_of_mem_spaced
    (ps.flatMap Piece.text ++ (c.front ++ '"' :: u))
  rw [List.append_assoc, List.singleton_append] at hweight
  rw [hweight]
  exact hlt

end Statement

namespace Policy

theorem comparisons_segments (t : Text) :
    ((segments t).map Text.comparisons).sum = Text.comparisons t := by
  have hsemicolon : ∀ c ∈ [';'], Text.isPlain c = true := Text.forall_mem_of_all (by decide)
  rw [segments, Text.comparisons_isMeasure.filter_not_isEmpty,
    Text.comparisons_isMeasure.map_trim, ← Text.comparisons_isMeasure.join hsemicolon (by decide),
    Text.splitUnquoted, Text.join_splitUnquotedFrom]

theorem isGuarded_flatMap {ss : List Statement} (hform : ∀ s ∈ ss, s.bindRule.IsRootForm) :
    Text.IsGuarded (ss.flatMap fun s => ' ' :: s.text) := by
  induction ss with
  | nil => exact Text.isGuarded_nil
  | cons s ss ih =>
      have hrest := ih fun r hr => hform r (List.mem_cons_of_mem s hr)
      exact Statement.isGuarded_text (hform s (by simp)) hrest

theorem comparisons_flatMap {ss : List Statement} (hform : ∀ s ∈ ss, s.bindRule.IsRootForm) :
    Text.comparisons (ss.flatMap fun s => ' ' :: s.text) = (ss.map Statement.weight).sum := by
  induction ss with
  | nil => rfl
  | cons s ss ih =>
      have hrest := ih fun r hr => hform r (List.mem_cons_of_mem s hr)
      rw [List.flatMap_cons, Text.comparisons_append, hrest,
        Text.comparisons_isMeasure.cons (by decide), Statement.comparisons_text (hform s (by simp)),
        List.map_cons, List.sum_cons]

/-- Statements that are read from their own texts have closed values only. -/
theorem isClosed_of_segments {limit : Nat} {ss : List Statement}
    (hform : ∀ s ∈ ss, s.bindRule.IsRootForm)
    (h : List.Forall₂ (fun t s => Statement.parseWith limit t = .ok s)
      (segments (ss.flatMap fun s => ' ' :: s.text)) ss) : ∀ s ∈ ss, s.IsClosed := by
  induction ss with
  | nil => simp
  | cons s ss ih =>
      have hrest (r : Statement) (hr : r ∈ ss) : r.bindRule.IsRootForm :=
        hform r (List.mem_cons_of_mem s hr)
      have hweights := comparisons_segments ((s :: ss).flatMap fun s => ' ' :: s.text)
      rw [comparisons_flatMap hform] at hweights
      rw [List.flatMap_cons, List.cons_append, segments_blank_cons] at h hweights
      obtain ⟨segment, later, hread, hlater, hsegments⟩ := List.forall₂_cons_right_iff.1 h
      have hle : (ss.map Statement.weight).sum ≤ (later.map Text.comparisons).sum := by
        refine List.Forall₂.sum_le_sum ?_
        rw [List.forall₂_map_left_iff, List.forall₂_map_right_iff]
        exact hlater.flip.imp fun t r hr => Statement.weight_le_of_parseWith hr
      rw [hsegments, List.map_cons, List.map_cons, List.sum_cons, List.sum_cons] at hweights
      have hclosed : s.IsClosed := by
        by_contra hopen
        have hlt := Statement.weight_lt_of_not_isClosed (hform s (by simp)) hopen
          (isGuarded_flatMap hrest) hsegments hread
        omega
      rw [segments_text_append (hform s (by simp)) hclosed, List.cons.injEq] at hsegments
      rw [← hsegments.2] at hlater
      exact List.forall_mem_cons.2 ⟨hclosed, ih hrest hlater⟩

/-- A policy that was read is read from its own text exactly if its conditions read back. -/
theorem parseWith_text_iff {limit : Nat} {t : Text} {p : Policy} (h : parseWith limit t = .ok p) :
    parseWith limit p.text = .ok p ↔
      ∀ s ∈ p.statements, ∀ c ∈ s.bindRule.conditions, c.ReadsBack := by
  obtain ⟨hstatements, hne⟩ := parseWith_eq_ok_iff.1 h
  have hread (s : Statement) (hs : s ∈ p.statements) : s.permission.rights.isKnown = true ∧
      ∃ rule, BindRule.parseWith limit rule = .ok s.bindRule := by
    obtain ⟨segment, -, hsegment⟩ := Outcome.exists_of_mem_right hstatements hs
    obtain ⟨front, rule, -, hpermission, hrule⟩ := Statement.parseWith_eq_ok_iff.1 hsegment
    exact ⟨Permission.isKnown_of_parse hpermission, rule, hrule⟩
  have hform (s : Statement) (hs : s ∈ p.statements) : s.bindRule.IsRootForm := by
    obtain ⟨-, rule, hrule⟩ := hread s hs
    exact Statement.rootForm_of_parseWith hrule
  constructor
  · intro hagain
    rw [← parseWith_blank_cons_eq_ok_iff, parseWith_eq_ok_iff, blank_cons_text hne] at hagain
    have hclosed := isClosed_of_segments hform hagain.1
    rw [segments_flatMap hform hclosed, List.forall₂_map_left_iff, List.forall₂_same] at hagain
    intro s hs c hc
    obtain ⟨front, rule, hcut, -, hrule⟩ := Statement.parseWith_eq_ok_iff.1 (hagain.1 s hs)
    rw [Text.trim_eq_self (Statement.isTrimmed_body (hform s hs)), Statement.cut?_body] at hcut
    cases hcut
    rw [BindRule.parseWith_blank_cons_eq_ok_iff] at hrule
    have hback := BindRule.readsBack_of_parseWith_text (hform s hs) (hclosed s hs) hrule
    exact ⟨hclosed s hs c hc, hback c hc⟩
  · intro hback
    have hclosed (s : Statement) (hs : s ∈ p.statements) : s.IsClosed :=
      fun c hc => (hback s hs c hc).closed
    refine parseWith_text hne (fun s hs => (hread s hs).1) hclosed fun s hs => ?_
    obtain ⟨-, rule, hrule⟩ := hread s hs
    exact BindRule.parseWith_text_of_parseWith hrule (hclosed s hs)
      fun c hc => (hback s hs c hc).value

end Policy

end DirectoryAccess
