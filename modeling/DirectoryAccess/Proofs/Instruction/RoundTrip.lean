import DirectoryAccess.Proofs.Instruction.Policy
import DirectoryAccess.Proofs.TargetRule.RoundTrip

/-!
# Which instructions read back

Reading finds the parts of a written instruction where they were written: the
version in front of which only the target rule stands, the label between its
quotes, the statements up to the last parenthesis.  So an instruction that was
read is read from its own text exactly if each clause and each condition is.
-/

namespace DirectoryAccess

namespace Instruction

theorem parseWith_eq_ok_iff {limit : Nat} {t : Text} {i : Instruction} :
    parseWith limit t = .ok i ↔
      ∃ front behind targets after body,
        Text.cutFold? versionMarker (Text.trim t) = some (front, behind) ∧
        Text.stripLast? '(' (Text.trimEnd front) = some targets ∧
        (journaledTarget targets).result = .ok i.targetRule ∧
        readLabel behind = .ok (i.label, after) ∧ readBody i.label after = .ok body ∧
        Policy.parseWith limit body = .ok i.policy := by
  obtain ⟨targetRule, label, policy⟩ := i
  simp only [parseWith, journaledParse]
  split
  · rename_i hcut
    simp [hcut]
  · rename_i front behind hcut
    split
    · rename_i hstrip
      simp [hcut, hstrip]
    · rename_i targets hstrip
      simp only [Journaled.result_bind, Journaled.result_lift, Journaled.result_pure,
        Outcome.bind_eq_ok, Policy.parseWith]
      constructor
      · rintro ⟨r, hr, ⟨l, after⟩, hlabel, body, hbody, p, hp, heq⟩
        cases heq
        exact ⟨front, behind, targets, after, body, hcut, hstrip, hr, hlabel, hbody, hp⟩
      · rintro ⟨_, _, _, after, body, hcut', hstrip', hr, hlabel, hbody, hp⟩
        rw [hcut] at hcut'
        cases hcut'
        rw [hstrip] at hstrip'
        cases hstrip'
        exact ⟨targetRule, hr, (label, after), hlabel, body, hbody, policy, hp, rfl⟩

theorem journaledTarget_eq_ok_iff {t : Text} {target : Option TargetRule} :
    (journaledTarget t).result = .ok target ↔
      (Text.trim t = [] ∧ target = none) ∨
        Text.trim t ≠ [] ∧ ∃ r, TargetRule.parse (Text.trim t) = .ok r ∧ target = some r := by
  simp only [journaledTarget, List.isEmpty_iff]
  split
  · rename_i hempty
    simp [hempty, eq_comm]
  · rename_i hne
    simp only [Journaled.result_bind, Journaled.result_pure, Outcome.bind_eq_ok,
      Except.ok.injEq, hne, TargetRule.parse, false_and, false_or, not_false_eq_true, true_and,
      ne_eq, eq_comm (a := target)]

/-- A label that was read can stand between quotes and is not blank. -/
theorem isClosed_of_readLabel {t label after : Text} (h : readLabel t = .ok (label, after)) :
    label.isClosed = true ∧ Text.isBlankText label = false := by
  unfold readLabel at h
  split at h
  · cases h
  · split at h
    · cases h
    · split at h
      · cases h
      · split at h
        · cases h
        · rename_i hcut
          split at h
          · cases h
          · rename_i hblank
            cases h
            exact ⟨Text.isClosed_iff.2 (Text.cutQuote?_eq_some_iff.1 hcut).2, by simpa using hblank⟩

/-- What is cut off behind the opening quote is the label, unless it is blank. -/
theorem readLabel_of_cutQuote? {t label after : Text}
    (hcut : Text.cutQuote? t = some (label, after)) (hblank : Text.isBlankText label = false) :
    readLabel (" acl \"".toList ++ t) = .ok (label, after) := by
  have hword : Text.stripFold? "acl".toList (Text.trimStart (" acl \"".toList ++ t)) =
      some (' ' :: '"' :: t) := rfl
  have hquote : Text.cutQuote? (' ' :: '"' :: t) = some ([' '], t) := rfl
  have hspace : Text.isBlankText [' '] = true := rfl
  rw [readLabel, hword]
  simp only [hquote, hspace, hcut, hblank, Bool.not_true, Bool.false_eq_true, if_false]

theorem acl_quote_append (label rest : Text) :
    " acl ".toList ++ Text.quote label ++ rest = " acl \"".toList ++ (label ++ '"' :: rest) := by
  simp [Text.quote]

theorem readLabel_quote {label : Text} (hclosed : label.isClosed = true)
    (hblank : Text.isBlankText label = false) (rest : Text) :
    readLabel (" acl ".toList ++ Text.quote label ++ rest) = .ok (label, rest) := by
  rw [acl_quote_append]
  refine readLabel_of_cutQuote? ?_ hblank
  rw [← Text.closeRun?_eq_cutQuote?, Text.closeRun?_of_isClosed hclosed]

theorem readBody_text (label body : Text) :
    readBody label ("; ".toList ++ body ++ [')']) = .ok (' ' :: body) := by
  have hstart : Text.strip? [';'] (Text.trimStart ("; ".toList ++ body ++ [')'])) =
      some ((' ' :: body) ++ [')']) := rfl
  have hend : Text.trimEnd ((' ' :: body) ++ [')']) = (' ' :: body) ++ [')'] :=
    Text.trimEnd_append_cons (by decide) (' ' :: body) []
  have hlast : Text.stripLast? ')' ((' ' :: body) ++ [')']) = some (' ' :: body) :=
    Text.stripLast?_eq_some_iff.2 rfl
  rw [readBody, hstart]
  simp only [hend, hlast]

/-- What an instruction writes in front of its parenthesis. -/
def targetText (i : Instruction) : Text :=
  (i.targetRule.map TargetRule.text).getD []

/-- What an instruction writes behind the version. -/
def behind (i : Instruction) : Text :=
  " acl ".toList ++ Text.quote i.label ++ ("; ".toList ++ i.policy.text ++ [')'])

theorem behind_eq (i : Instruction) :
    i.behind = " acl ".toList ++ Text.quote i.label ++ ("; ".toList ++ i.policy.text ++ [')']) :=
  rfl

theorem text_eq (i : Instruction) :
    i.text = i.targetText ++ '(' :: (versionMarker ++ i.behind) := by
  simp [text, targetText, behind_eq]

variable {limit : Nat} {t : Text} {i : Instruction}

/-- The label of an instruction that was read can stand between quotes and is not blank. -/
theorem isClosed_label_of_parseWith (h : parseWith limit t = .ok i) :
    i.label.isClosed = true ∧ Text.isBlankText i.label = false := by
  obtain ⟨_, _, _, _, _, -, -, -, hlabel, -, -⟩ := parseWith_eq_ok_iff.1 h
  exact isClosed_of_readLabel hlabel

/-- The policy of an instruction that was read was read from a part of the text. -/
theorem exists_policy_of_parseWith (h : parseWith limit t = .ok i) :
    ∃ body, Policy.parseWith limit body = .ok i.policy := by
  obtain ⟨_, _, _, _, body, -, -, -, -, -, hpolicy⟩ := parseWith_eq_ok_iff.1 h
  exact ⟨body, hpolicy⟩

/-- The target rule of an instruction that was read has clauses, and they lack the version. -/
theorem targetRule_of_parseWith (h : parseWith limit t = .ok i) {r : TargetRule}
    (hr : i.targetRule = some r) : r.clauses ≠ [] ∧ Text.Lacks versionMarker r.text ∧
      ∃ targets, TargetRule.parse targets = .ok r := by
  obtain ⟨front, behind, targets, after, body, hcut, hstrip, htarget, -⟩ := parseWith_eq_ok_iff.1 h
  have hfront := (Text.lacks_of_cutFold? (by decide) hcut).1
  have htargets : Text.trim targets <:+: front := by
    have hprefix := Text.trimEnd_isPrefix front
    rw [Text.stripLast?_eq_some_iff.1 hstrip] at hprefix
    exact (Text.trim_isInfix targets).trans ((List.prefix_append _ _).trans hprefix).isInfix
  rw [hr, journaledTarget_eq_ok_iff] at htarget
  rcases htarget with ⟨-, hnone⟩ | ⟨hne, r', hparse, hsome⟩
  · cases hnone
  · cases hsome
    refine ⟨?_, TargetRule.lacks_text_of_parse hparse (hfront.of_isInfix htargets), _, hparse⟩
    obtain ⟨c, cs, hcs⟩ := List.exists_cons_of_ne_nil hne
    have hblank : Text.isBlank c = false := by
      refine (Text.isTrimmed_trim targets).1 c ?_
      rw [hcs]
      rfl
    rw [hcs] at hparse
    exact TargetRule.clauses_ne_nil_of_parse (Text.isSeparator_of_isBlank_eq_false hblank) hparse

theorem lacks_targetText (h : parseWith limit t = .ok i) :
    Text.Lacks versionMarker i.targetText := by
  cases hr : i.targetRule with
  | none =>
      rw [targetText, hr]
      exact .nil (by decide)
  | some r =>
      rw [targetText, hr]
      exact (targetRule_of_parseWith h hr).2.1

theorem trim_text (h : parseWith limit t = .ok i) : Text.trim i.text = i.text := by
  refine Text.trim_eq_self ⟨?_, ?_⟩
  · cases hr : i.targetRule with
    | none => simp [text, hr, Text.isBlank]
    | some r =>
        obtain ⟨m, hm⟩ := TargetRule.exists_text_eq (targetRule_of_parseWith h hr).1
        simp [text, hr, hm, Text.isBlank]
  · rw [text, List.getLast?_concat]
    simp [Text.isBlank]

theorem journaledTarget_targetText (h : parseWith limit t = .ok i) :
    (journaledTarget i.targetText).result = .ok i.targetRule ↔
      ∀ r, i.targetRule = some r → TargetRule.parse r.text = .ok r := by
  rw [journaledTarget_eq_ok_iff]
  cases hr : i.targetRule with
  | none =>
      rw [targetText, hr]
      simp
      rfl
  | some r =>
      obtain ⟨m, hm⟩ := TargetRule.exists_text_eq (targetRule_of_parseWith h hr).1
      have htrim : Text.trim r.text = r.text := by
        rw [hm]
        exact Text.trim_eq_self (Text.isTrimmed_cons_append (by decide) (by decide) m)
      have hne : r.text ≠ [] := by simp [hm]
      rw [targetText, hr, Option.map_some, Option.getD_some, htrim]
      simp [hne]

/-- An instruction is read from its own text exactly if its target rule and its policy are. -/
theorem parseWith_text_iff_parts (h : parseWith limit t = .ok i) :
    parseWith limit i.text = .ok i ↔
      (∀ r, i.targetRule = some r → TargetRule.parse r.text = .ok r) ∧
        Policy.parseWith limit i.policy.text = .ok i.policy := by
  obtain ⟨hclosed, hblank⟩ := isClosed_label_of_parseWith h
  have hcut : Text.cutFold? versionMarker (Text.trim i.text) =
      some (i.targetText ++ ['('], i.behind) := by
    rw [trim_text h, text_eq]
    exact Text.cutFold?_append_cons (by decide) (lacks_targetText h) (by decide) i.behind
  have hstrip : Text.stripLast? '(' (Text.trimEnd (i.targetText ++ ['('])) = some i.targetText := by
    rw [Text.trimEnd_append_cons (by decide)]
    exact Text.stripLast?_eq_some_iff.2 rfl
  have hread : readLabel i.behind = .ok (i.label, "; ".toList ++ i.policy.text ++ [')']) :=
    readLabel_quote hclosed hblank _
  rw [parseWith_eq_ok_iff, ← journaledTarget_targetText h,
    ← Policy.parseWith_blank_cons_eq_ok_iff (p := i.policy)]
  constructor
  · rintro ⟨front, rest, targets, after, body, hcut', hstrip', htarget, hlabel, hbody, hpolicy⟩
    rw [hcut] at hcut'
    cases hcut'
    rw [hstrip] at hstrip'
    cases hstrip'
    rw [hread] at hlabel
    cases hlabel
    rw [readBody_text] at hbody
    cases hbody
    exact ⟨htarget, hpolicy⟩
  · rintro ⟨htarget, hpolicy⟩
    exact ⟨_, _, _, _, _, hcut, hstrip, htarget, hread, readBody_text i.label i.policy.text,
      hpolicy⟩

/-- What the clauses and the conditions write between quotes reads as their values. -/
structure ReadsBack (i : Instruction) : Prop where
  clauses : ∀ r, i.targetRule = some r → ∀ c ∈ r.clauses, c.ReadsBack
  conditions : ∀ s ∈ i.policy.statements, ∀ c ∈ s.bindRule.conditions, c.ReadsBack

/--
An instruction that was read is read from its own text, under the same limit, exactly if each of its
clauses and conditions reads back.
-/
theorem readsBack_iff (h : parseWith limit t = .ok i) :
    parseWith limit i.text = .ok i ↔ i.ReadsBack := by
  obtain ⟨_, _, _, _, _, -, -, -, -, -, hpolicy⟩ := parseWith_eq_ok_iff.1 h
  rw [parseWith_text_iff_parts h, Policy.parseWith_text_iff hpolicy]
  have htarget : (∀ r, i.targetRule = some r → TargetRule.parse r.text = .ok r) ↔
      ∀ r, i.targetRule = some r → ∀ c ∈ r.clauses, c.ReadsBack := by
    refine forall_congr' fun r => forall_congr' fun hr => ?_
    obtain ⟨-, -, targets, hparse⟩ := targetRule_of_parseWith h hr
    exact TargetRule.parse_text_iff hparse
  rw [htarget]
  exact ⟨fun hparts => ⟨hparts.1, hparts.2⟩, fun hread => ⟨hread.clauses, hread.conditions⟩⟩

/-- A text whose only name ends in an escaped blank. -/
def blankEndText : Text :=
  "(version 3.0; acl \"x\"; allow(read) userdn = \"ldap:///dc=a\\ \";)".toList

/-- The condition in `blankEndText`, which writes the backslash without the blank. -/
def blankEndCondition : Condition :=
  .make .userDn .eq (.names ⟨[.dn ⟨"dc=a\\".toList⟩]⟩)

/-- The instruction as which `blankEndText` is read. -/
def blankEnd : Instruction :=
  ⟨none, "x".toList, ⟨[⟨⟨.allow, .ofList [.read]⟩, .condition blankEndCondition⟩]⟩⟩

theorem parseWith_blankEndText : parseWith 0 blankEndText = .ok blankEnd := by
  have hclosed : Text.isClosed "ldap:///dc=a\\ ".toList = true :=
    Text.isClosed_iff.2 ⟨by decide, by decide⟩
  have hrule : BindRule.parseWith 0 " userdn = \"ldap:///dc=a\\ \"".toList =
      .ok (.condition blankEndCondition) :=
    BindRule.parseWith_blank_cons_eq_ok_iff.2
      (BindRule.parseWith_front_quote (c := blankEndCondition) hclosed rfl)
  have hstatement : Statement.parseWith 0 "allow(read) userdn = \"ldap:///dc=a\\ \"".toList =
      .ok ⟨⟨.allow, .ofList [.read]⟩, .condition blankEndCondition⟩ :=
    Statement.parseWith_eq_ok_iff.2 ⟨_, _, rfl, rfl, hrule⟩
  have hpolicy : Policy.parseWith 0 " allow(read) userdn = \"ldap:///dc=a\\ \";".toList =
      .ok blankEnd.policy :=
    Policy.parseWith_eq_ok_iff.2 ⟨.cons hstatement .nil, by decide⟩
  exact parseWith_eq_ok_iff.2 ⟨_, _, _, _, _, rfl, rfl, rfl, rfl, rfl, hpolicy⟩

/-- An instruction that was read is not read from its own text. -/
theorem blankEnd_is_not_read_from_text :
    parseWith 0 blankEndText = .ok blankEnd ∧ parseWith 0 blankEnd.text ≠ .ok blankEnd := by
  refine ⟨parseWith_blankEndText, fun hagain => ?_⟩
  obtain ⟨_, _, _, _, _, -, -, -, -, -, hpolicy⟩ := parseWith_eq_ok_iff.1 parseWith_blankEndText
  have hparts := (parseWith_text_iff_parts parseWith_blankEndText).1 hagain
  have hread := (Policy.parseWith_text_iff hpolicy).1 hparts.2
    ⟨⟨.allow, .ofList [.read]⟩, .condition blankEndCondition⟩ (by decide) blankEndCondition
      (by decide)
  have hescaped := (Text.isClosed_iff.1 hread.closed).2
  revert hescaped
  decide

theorem readsBack_iff_of_blankEnd :
    parseWith 0 blankEnd.text = .ok blankEnd ↔ blankEnd.ReadsBack :=
  readsBack_iff parseWith_blankEndText

end Instruction

end DirectoryAccess
