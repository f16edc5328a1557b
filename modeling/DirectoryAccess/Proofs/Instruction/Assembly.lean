import DirectoryAccess.Proofs.Instruction.RoundTrip
import DirectoryAccess.Proofs.Token.Joined

/-!
# Instructions put together from their parts

Clauses, a label and statements that are read on their own are read as parts of
the instruction made of them, unless the clauses hold the words that announce
the version.  The reader looks for these words in quoted values too, takes those
of the value for the real ones, and what is left in front of them is no target.
-/

namespace DirectoryAccess

theorem isAlpha_of_isAlpha_toLower {c : Char} (h : c.toLower.isAlpha = true) :
    c.isAlpha = true := by
  unfold Char.toLower at h
  split at h
  · rename_i hupper
    have hcase : c.isUpper = true := by
      unfold Char.isUpper
      simpa using hupper
    unfold Char.isAlpha
    rw [hcase, Bool.true_or]
  · exact h

theorem lacks_of_lacks_trimStart {t : Text} (h : Text.Lacks versionMarker (Text.trimStart t)) :
    Text.Lacks versionMarker t := by
  induction t with
  | nil => exact h
  | cons c t ih =>
      cases hblank : Text.isBlank c with
      | false => rwa [Text.trimStart_eq_self (by simpa using hblank)] at h
      | true =>
          rw [Text.trimStart, List.dropWhile_cons_of_pos hblank] at h
          refine (ih h).cons fun hhead => ?_
          have hlower : c.toLower = 'v' := (Option.mem_some_iff.1 hhead).symm
          have halpha : c.isAlpha = true := isAlpha_of_isAlpha_toLower (by rw [hlower]; rfl)
          rw [TargetToken.isBlank_of_isKeywordChar (by simp [TargetToken.isKeywordChar, halpha])]
            at hblank
          cases hblank

namespace TargetToken

/-- The marker is a word, and behind it a number, with which no token of a target rule starts. -/
theorem exists_word_of_marker {m : Text} (hm : Text.lower m = Text.lower versionMarker) :
    ∃ word rest, m = word ++ ' ' :: '3' :: rest ∧ word ≠ [] ∧
      ∀ c ∈ word, isKeywordChar c = true := by
  have hsplit : Text.lower m = "version".toList ++ ' ' :: '3' :: ".0;".toList := hm
  obtain ⟨word, number, rfl, hword, hnumber⟩ := List.map_eq_append_iff.1 hsplit
  obtain ⟨a, number, rfl, ha, hnumber⟩ := List.map_eq_cons_iff.1 hnumber
  obtain ⟨b, rest, rfl, hb, -⟩ := List.map_eq_cons_iff.1 hnumber
  obtain rfl := Text.eq_of_toLower (by decide) ha
  obtain rfl := Text.eq_of_toLower (by decide) hb
  refine ⟨word, rest, rfl, ?_, fun c hc => ?_⟩
  · rintro rfl
    cases hword
  · have hlower : c.toLower ∈ "version".toList := hword ▸ List.mem_map_of_mem hc
    have hall : ∀ d ∈ "version".toList, d.isAlpha = true := Text.forall_mem_of_all (by decide)
    rw [isKeywordChar, isAlpha_of_isAlpha_toLower (hall _ hlower), Bool.true_or]

theorem scan_of_scan_gap {gap t : Text} {c : Char} {ts : List TargetToken}
    (hgap : ∀ d ∈ gap, Text.isBlank d = true) (hc : Text.isBlank c = false)
    (h : reader.scan (gap ++ c :: t) = .ok ts) : reader.scan (c :: t) = .ok ts := by
  have hstart : Text.trimStart (gap ++ c :: t) = c :: t := by
    rw [Text.trimStart_append_cons hc, Text.trimStart, List.dropWhile_eq_nil_iff.2 hgap,
      List.nil_append]
  rw [← hstart]
  exact scan_trimStart h

theorem scan_marker_ne_ok {gap m : Text} (hgap : ∀ c ∈ gap, Text.isBlank c = true)
    (hm : Text.lower m = Text.lower versionMarker) (rest : Text) (ts : List TargetToken) :
    reader.scan (gap ++ (m ++ rest)) ≠ .ok ts := by
  intro h
  obtain ⟨word, number, rfl, hne, hword⟩ := exists_word_of_marker hm
  have hstart : reader.scan (word ++ ' ' :: ('3' :: number ++ rest)) = .ok ts := by
    obtain ⟨c, cs, rfl⟩ := List.exists_cons_of_ne_nil hne
    rw [List.append_assoc] at h
    exact scan_of_scan_gap hgap (isBlank_of_isKeywordChar (hword c (by simp))) h
  rw [scan_keyword hne hword (by simp [isKeywordChar])] at hstart
  obtain ⟨us, hus, -⟩ := Outcome.map_eq_ok.1 hstart
  rw [reader.scan_separator (by decide), List.cons_append] at hus
  obtain ⟨token, after, vs, hread, -, -⟩ := reader.exists_of_scan_cons (by decide) hus
  have hnothing : reader.read ('3' :: (number ++ rest)) = .nothing := rfl
  rw [hnothing] at hread
  cases hread

/-- Behind what is scanned, an opening parenthesis does not make the marker a token. -/
theorem scan_append_marker_ne_ok {s before gap m : Text} {us : List TargetToken}
    (hs : reader.scan s = .ok us) (hbefore : ∀ c ∈ before, Text.isBlank c = true)
    (hgap : ∀ c ∈ gap, Text.isBlank c = true) (hm : Text.lower m = Text.lower versionMarker)
    (rest : Text) (ts : List TargetToken) :
    reader.scan (s ++ (before ++ '(' :: (gap ++ (m ++ rest)))) ≠ .ok ts := by
  intro h
  have hnext : ∀ c ∈ (before ++ '(' :: (gap ++ (m ++ rest))).head?, isKeywordChar c = false := by
    intro c hc
    have hblank : c = '(' ∨ Text.isBlank c = true := by
      cases before with
      | nil => exact Or.inl (Option.some.inj hc).symm
      | cons d before => exact Or.inr (Option.some.inj hc ▸ hbefore d (by simp))
    by_contra hkeyword
    rw [Bool.not_eq_false] at hkeyword
    rcases hblank with rfl | hblank
    · cases hkeyword
    · rw [isBlank_of_isKeywordChar hkeyword] at hblank
      cases hblank
  rw [scan_append hs hnext] at h
  obtain ⟨vs, hvs, -⟩ := Outcome.map_eq_ok.1 h
  have hopen := scan_of_scan_gap hbefore (by decide) hvs
  rw [scan_openParen] at hopen
  obtain ⟨ws, hws, -⟩ := Outcome.map_eq_ok.1 hopen
  exact scan_marker_ne_ok hgap hm rest ws hws

end TargetToken

namespace TargetRule

theorem parse_trim {t : Text} {r : TargetRule} (h : parse t = .ok r) :
    parse (Text.trim t) = .ok r := by
  obtain ⟨ts, cs, hscan, hcs, hfold⟩ := parse_eq_ok_iff.1 h
  exact parse_eq_ok_iff.2 ⟨ts, cs, TargetToken.scan_trim hscan, hcs, hfold⟩

theorem trim_ne_nil_of_parse {t : Text} {r : TargetRule} (h : parse t = .ok r)
    (hne : r.clauses ≠ []) : Text.trim t ≠ [] := by
  intro hnil
  have hagain := parse_trim h
  rw [hnil] at hagain
  have hnone : parse [] = .ok empty :=
    parse_eq_ok_iff.2 ⟨[], [], TargetToken.reader.scan_nil, .nil, rfl⟩
  rw [hnone] at hagain
  cases hagain
  exact hne rfl

end TargetRule

/-- A statement of one condition is read from its own text. -/
theorem Policy.parseWith_condition {limit : Nat} (permission : Permission) (c : Condition)
    {t : Text} (ht : Policy.text ⟨[⟨permission, .condition c.bare⟩]⟩ = t)
    (hknown : permission.rights.isKnown = true) (hclosed : c.value.text.isClosed = true)
    (hread : Value.parseBind c.keyword c.value.text = .ok c.value) :
    parseWith limit t = .ok ⟨[⟨permission, .condition c.bare⟩]⟩ := by
  rw [← ht]
  refine parseWith_text (List.cons_ne_nil _ _) ?_ ?_ ?_
  · intro s hs
    rw [List.mem_singleton.1 hs]
    exact hknown
  · intro s hs d hd
    rw [List.mem_singleton.1 hs, BindRule.conditions, List.mem_singleton] at hd
    rw [hd]
    exact hclosed
  · intro s hs
    rw [List.mem_singleton.1 hs]
    exact BindRule.parseWith_text_condition hclosed hread

namespace Instruction

/-- The text of clauses, a label and statements put together as an instruction. -/
def assembled (targets label statements : Text) : Text :=
  targets ++ '(' :: (versionMarker ++ (" acl ".toList ++ Text.quote label ++
    ("; ".toList ++ statements ++ [')'])))

/-- The text is read as the target rule; the empty text stands for none. -/
def IsTarget (t : Text) (target : Option TargetRule) : Prop :=
  (t = [] ∧ target = none) ∨
    ∃ r, TargetRule.parse t = .ok r ∧ r.clauses ≠ [] ∧ target = some r

variable {limit : Nat} {targets label statements : Text} {target : Option TargetRule} {p : Policy}

theorem trim_assembled (targets label statements : Text) :
    Text.trim (assembled targets label statements) =
      assembled (Text.trimStart targets) label statements := by
  have hend (t : Text) : Text.trimEnd (assembled t label statements) =
      assembled t label statements := by
    have hsplit : assembled t label statements = (t ++ '(' :: (versionMarker ++
        (" acl ".toList ++ Text.quote label ++ ("; ".toList ++ statements)))) ++ [')'] := by
      simp [assembled]
    rw [hsplit, Text.trimEnd_append_cons (by decide)]
    rfl
  rw [Text.trim, assembled, Text.trimStart_append_cons (by decide)]
  exact hend (Text.trimStart targets)

theorem IsTarget.exists_scan {t : Text} (h : IsTarget t target) :
    ∃ ts, TargetToken.reader.scan t = .ok ts := by
  rcases h with ⟨rfl, -⟩ | ⟨r, hr, -, -⟩
  · exact ⟨[], TargetToken.reader.scan_nil⟩
  · obtain ⟨ts, cs, hscan, -, -⟩ := TargetRule.parse_eq_ok_iff.1 hr
    exact ⟨ts, hscan⟩

theorem IsTarget.journaledTarget {t : Text} (h : IsTarget t target) :
    (journaledTarget (Text.trimStart t)).result = .ok target := by
  rw [journaledTarget_eq_ok_iff, Text.trim_trimStart]
  rcases h with ⟨rfl, htarget⟩ | ⟨r, hr, hne, htarget⟩
  · exact Or.inl ⟨rfl, htarget⟩
  · exact Or.inr ⟨TargetRule.trim_ne_nil_of_parse hr hne, r, TargetRule.parse_trim hr, htarget⟩

/-- Behind clauses that lack the version, the label is read, and then what follows it. -/
theorem parseWith_assembled_eq (htarget : IsTarget targets target)
    (hlacks : Text.Lacks versionMarker targets) (limit : Nat) (label statements : Text) :
    parseWith limit (assembled targets label statements) = (do
      let (label, after) ← readLabel (" acl ".toList ++ Text.quote label ++
        ("; ".toList ++ statements ++ [')']))
      let body ← readBody label after
      let policy ← Policy.parseWith limit body
      return ⟨target, label, policy⟩) := by
  have hfront := hlacks.of_isInfix (Text.trimStart_isSuffix targets).isInfix
  have hcut : Text.cutFold? versionMarker (Text.trim (assembled targets label statements)) =
      some (Text.trimStart targets ++ ['('], " acl ".toList ++ Text.quote label ++
        ("; ".toList ++ statements ++ [')'])) := by
    rw [trim_assembled]
    exact Text.cutFold?_append_cons (by decide) hfront (by decide) _
  have hstrip : Text.stripLast? '(' (Text.trimEnd (Text.trimStart targets ++ ['('])) =
      some (Text.trimStart targets) := by
    rw [Text.trimEnd_append_cons (by decide)]
    exact Text.stripLast?_eq_some_iff.2 rfl
  simp only [parseWith, journaledParse, hcut, hstrip, Journaled.result_bind, Journaled.result_lift,
    Journaled.result_pure, htarget.journaledTarget]
  rfl

theorem parseWith_assembled (htarget : IsTarget targets target)
    (hlacks : Text.Lacks versionMarker targets) (hclosed : label.isClosed = true)
    (hblank : Text.isBlankText label = false) (hp : Policy.parseWith limit statements = .ok p) :
    parseWith limit (assembled targets label statements) = .ok ⟨target, label, p⟩ := by
  rw [parseWith_assembled_eq htarget hlacks, readLabel_quote hclosed hblank, Outcome.bind_eq_ok]
  refine ⟨_, rfl, Outcome.bind_eq_ok.2 ⟨_, readBody_text label statements, ?_⟩⟩
  exact Outcome.bind_eq_ok.2 ⟨p, Policy.parseWith_blank_cons_eq_ok_iff.2 hp, rfl⟩

/-- Words of the version in the clauses are taken for those of the instruction. -/
theorem lacks_of_parseWith_assembled {i : Instruction} (htarget : IsTarget targets target)
    (h : parseWith limit (assembled targets label statements) = .ok i) :
    Text.Lacks versionMarker targets := by
  refine lacks_of_lacks_trimStart ?_
  by_contra hlacks
  obtain ⟨ts, hscan⟩ := htarget.exists_scan
  replace hscan := TargetToken.scan_trimStart hscan
  obtain ⟨front, m, rest, hsplit, hm, hcut⟩ := Text.cutFold?_append_of_not_lacks (by decide) hlacks
    ('(' :: (versionMarker ++ (" acl ".toList ++ Text.quote label ++
      ("; ".toList ++ statements ++ [')']))))
  obtain ⟨front', behind, inner, _, _, hcut', hstrip, hinner, -⟩ := parseWith_eq_ok_iff.1 h
  rw [trim_assembled, assembled, hcut] at hcut'
  cases hcut'
  -- What stands in front of the words is clauses, then a parenthesis, then white space.
  obtain ⟨blanks, hblanks, hall⟩ := Text.exists_trimEnd_append front
  rw [Text.stripLast?_eq_some_iff.1 hstrip] at hblanks
  have hstart : Text.trimStart inner = inner := by
    refine Text.trimStart_eq_self fun c hc => Text.head?_trimStart targets c ?_
    rw [hsplit, hblanks, List.append_assoc, List.append_assoc, List.head?_append,
      Option.mem_def.1 hc, Option.some_or, Option.mem_def]
  obtain ⟨us, hus⟩ : ∃ us, TargetToken.reader.scan (Text.trim inner) = .ok us := by
    rcases journaledTarget_eq_ok_iff.1 hinner with ⟨hnil, -⟩ | ⟨-, r, hr, -⟩
    · rw [hnil]
      exact ⟨[], TargetToken.reader.scan_nil⟩
    · obtain ⟨us, cs, hus, -, -⟩ := TargetRule.parse_eq_ok_iff.1 hr
      exact ⟨us, hus⟩
  rw [Text.trim, hstart] at hus
  obtain ⟨gap, hgap, hgapblank⟩ := Text.exists_trimEnd_append inner
  rw [hsplit, hblanks, hgap] at hscan
  refine TargetToken.scan_append_marker_ne_ok hus hgapblank hall hm rest ts ?_
  simpa using hscan

def openToAll : Policy :=
  ⟨[⟨⟨.allow, .ofList [.read]⟩, .condition (.make .userDn .eq (.names ⟨[.special .anyone]⟩))⟩]⟩

theorem parseWith_openToAll {limit : Nat} :
    Policy.parseWith limit "allow(read) userdn = \"ldap:///anyone\";".toList = .ok openToAll :=
  Policy.parseWith_condition ⟨.allow, .ofList [.read]⟩
    (.make .userDn .eq (.names ⟨[.special .anyone]⟩)) rfl rfl
    (Text.isClosed_iff.2 ⟨by decide, by decide⟩) rfl

def namedTarget (name : Text) : TargetRule :=
  ⟨[⟨.target, .eq, .names ⟨[.dn ⟨name⟩]⟩⟩]⟩

theorem isTarget_namedTarget (name : Text) {t : Text} (ht : (namedTarget name).text = t)
    (hclosed : (NameEntry.scheme ++ name).isClosed = true)
    (hread : Value.parseTarget .target [NameEntry.scheme ++ name] = .ok (.names ⟨[.dn ⟨name⟩]⟩)) :
    IsTarget t (some (namedTarget name)) := by
  rw [← ht]
  refine Or.inr ⟨namedTarget name, TargetRule.parse_text ⟨?_, ?_⟩ ?_ ?_, List.cons_ne_nil _ _, rfl⟩
  · exact List.nodup_singleton _
  · exact Nat.le_add_left 1 8
  · intro c hc
    rw [List.mem_singleton.1 hc]
    rfl
  · intro c hc
    rw [List.mem_singleton.1 hc]
    refine ⟨fun v hv => ?_, hread⟩
    rw [List.mem_singleton.1 hv]
    exact hclosed

/--
Parts that are read on their own are read together, and as themselves, exactly if the target rule
does not hold the words that announce the version.
-/
theorem parseWith_assembled_iff {i : Instruction} (htarget : IsTarget targets target)
    (hclosed : label.isClosed = true) (hblank : Text.isBlankText label = false)
    (hp : Policy.parseWith limit statements = .ok p) :
    parseWith limit (assembled targets label statements) = .ok i ↔
      Text.Lacks versionMarker targets ∧ i = ⟨target, label, p⟩ := by
  constructor
  · intro h
    have hlacks := lacks_of_parseWith_assembled htarget h
    rw [parseWith_assembled htarget hlacks hclosed hblank hp] at h
    exact ⟨hlacks, (Except.ok.inj h).symm⟩
  · rintro ⟨hlacks, rfl⟩
    exact parseWith_assembled htarget hlacks hclosed hblank hp

theorem parseWith_assembled_iff_of_quotedMarks :
    parseWith 0 (assembled "(target = \"ldap:///cn=\\\")(;acl,dc=a\")".toList "a \\\"; )".toList
        "allow(read) userdn = \"ldap:///anyone\";".toList) =
      .ok ⟨some (namedTarget "cn=\\\")(;acl,dc=a".toList), "a \\\"; )".toList, openToAll⟩ := by
  have htarget : IsTarget "(target = \"ldap:///cn=\\\")(;acl,dc=a\")".toList
      (some (namedTarget "cn=\\\")(;acl,dc=a".toList)) :=
    isTarget_namedTarget _ rfl (Text.isClosed_iff.2 ⟨by decide, by decide⟩) rfl
  have hlacks : Text.Lacks versionMarker "(target = \"ldap:///cn=\\\")(;acl,dc=a\")".toList :=
    .of_not_mem (c := '.') (by decide) (by decide)
  exact (parseWith_assembled_iff htarget (Text.isClosed_iff.2 ⟨by decide, by decide⟩) (by decide)
    parseWith_openToAll).2 ⟨hlacks, rfl⟩

/-- A name with the words of the version in it makes an instruction that is not read. -/
theorem assembled_versionedName_is_not_read :
    IsTarget "(target = \"ldap:///cn=version 3.0;,dc=a\")".toList
        (some (namedTarget "cn=version 3.0;,dc=a".toList)) ∧
      Text.isClosed "x".toList = true ∧ Text.isBlankText "x".toList = false ∧
      Policy.parseWith 0 "allow(read) userdn = \"ldap:///anyone\";".toList = .ok openToAll ∧
      parseWith 0 (assembled "(target = \"ldap:///cn=version 3.0;,dc=a\")".toList "x".toList
        "allow(read) userdn = \"ldap:///anyone\";".toList) = .error (.grammar .noOpenParen) := by
  refine ⟨?_, Text.isClosed_iff.2 ⟨by decide, by decide⟩, by decide, parseWith_openToAll, rfl⟩
  exact isTarget_namedTarget _ rfl (Text.isClosed_iff.2 ⟨by decide, by decide⟩) rfl

end Instruction

end DirectoryAccess
