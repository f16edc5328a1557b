import DirectoryAccess.Instruction.Parser
import DirectoryAccess.Proofs.BindRule.Derived
import DirectoryAccess.Proofs.Permission
import DirectoryAccess.Proofs.Text.Unquoted

/-!
# Written statements read back

The semicolons outside quotes part the statements of a written policy, and the
first closing parenthesis of a statement ends its permission.  Statements with
closed values whose bind rules read back are read back one by one.
-/

namespace DirectoryAccess

/-- The characters that the splitter passes over outside quotes. -/
def IsPassed (c : Char) : Prop :=
  c ≠ '\\' ∧ c ≠ '"' ∧ c ≠ ';'

instance (c : Char) : Decidable (IsPassed c) :=
  inferInstanceAs (Decidable (c ≠ '\\' ∧ c ≠ '"' ∧ c ≠ ';'))

theorem Permission.isPassed_of_mem_text {p : Permission} : ∀ c ∈ p.text, IsPassed c := by
  intro c hc
  rw [text_eq, List.mem_append, List.mem_singleton] at hc
  have hcases : c.isAlpha = true ∨ c = ',' ∨ c = '(' ∨ c = ')' := by
    rcases hc with hc | rfl
    · rcases isAlpha_or_of_mem_front hc with h | h | h <;> simp [h]
    · simp
  rcases hcases with h | rfl | rfl | rfl
  · refine ⟨?_, ?_, ?_⟩ <;> rintro rfl <;> simp at h
  all_goals decide

theorem Permission.isPassed_of_mem_spaced (p : Permission) :
    ∀ c ∈ p.text ++ [' '], IsPassed c := by
  intro c hc
  rcases List.mem_append.1 hc with hc | hc
  · exact isPassed_of_mem_text c hc
  · rw [List.mem_singleton.1 hc]
    decide

theorem Condition.isPassed_of_mem_front {c : Condition} : ∀ d ∈ c.front, IsPassed d := by
  have hname : ∀ d ∈ c.keyword.name, IsPassed d :=
    Text.forall_mem_of_all (by cases c.keyword <;> decide)
  have hsymbol : ∀ d ∈ c.op.symbol, IsPassed d :=
    Text.forall_mem_of_all (by cases c.op <;> decide)
  intro d hd
  simp only [front, List.mem_append, List.mem_cons, List.not_mem_nil, or_false] at hd
  rcases hd with (hd | rfl | hd) | rfl
  · exact hname d hd
  · decide
  · exact hsymbol d hd
  · decide

namespace Piece

variable {t q : Text} {qs : List Text}

theorem isPassed_of_mem_text {p : Piece} (h : p.condition? = none) :
    ∀ d ∈ p.text, IsPassed d := by
  refine Text.forall_mem_of_all ?_
  rcases p with _ | _ | (_ | _ | _) | c
  case condition => cases h
  all_goals decide

theorem splitUnquotedFrom_piece {p : Piece}
    (hclosed : ∀ c, p = condition c → c.value.text.isClosed = true)
    (ht : Text.splitUnquotedFrom ';' false t = q :: qs) :
    Text.splitUnquotedFrom ';' false (p.text ++ t) = (p.text ++ q) :: qs := by
  cases hp : p.condition? with
  | none => exact Text.splitUnquotedFrom_append (isPassed_of_mem_text hp) ht
  | some c =>
      obtain rfl : p = condition c := by
        cases p <;> simp_all
      rw [text_condition, c.text_append, c.text_append]
      exact Text.splitUnquotedFrom_append Condition.isPassed_of_mem_front
        (Text.splitUnquotedFrom_quoted (hclosed c rfl) ht)

/-- Pieces with closed values belong to one part. -/
theorem splitUnquotedFrom_pieces {ps : List Piece}
    (hclosed : ∀ c, condition c ∈ ps → c.value.text.isClosed = true)
    (ht : Text.splitUnquotedFrom ';' false t = q :: qs) :
    Text.splitUnquotedFrom ';' false (ps.flatMap text ++ t) = (ps.flatMap text ++ q) :: qs := by
  induction ps with
  | nil => exact ht
  | cons p ps ih =>
      have hrest := ih fun c hc => hclosed c (List.mem_cons_of_mem p hc)
      have hhead : ∀ c, p = condition c → c.value.text.isClosed = true := by
        rintro c rfl
        exact hclosed c (by simp)
      rw [List.flatMap_cons, List.append_assoc, splitUnquotedFrom_piece hhead hrest,
        List.append_assoc]

end Piece

namespace Statement

def body (s : Statement) : Text :=
  s.permission.text ++ ' ' :: s.bindRule.text

theorem text_eq (s : Statement) : s.text = s.body ++ [';'] := by
  simp [text, body]

/-- The value texts of the statement can stand between quotes. -/
def IsClosed (s : Statement) : Prop :=
  ∀ c ∈ s.bindRule.conditions, c.value.text.isClosed = true

theorem parseWith_eq_ok_iff {limit : Nat} {t : Text} {s : Statement} :
    parseWith limit t = .ok s ↔
      ∃ front rule, Text.cut? ')' (Text.trim t) = some (front, rule) ∧
        Permission.parse (front ++ [')']) = .ok s.permission ∧
        BindRule.parseWith limit rule = .ok s.bindRule := by
  obtain ⟨permission, bindRule⟩ := s
  simp only [parseWith, journaledParse]
  split
  · rename_i hcut
    simp [hcut]
  · rename_i front rule hcut
    simp only [Journaled.result_bind, Journaled.result_lift, Journaled.result_pure,
      Outcome.bind_eq_ok, Except.ok.injEq, Statement.mk.injEq, hcut, Option.some.injEq,
      Prod.mk.injEq, BindRule.parseWith]
    constructor
    · rintro ⟨p, hp, r, hr, rfl, rfl⟩
      exact ⟨front, rule, ⟨rfl, rfl⟩, hp, hr⟩
    · rintro ⟨_, _, ⟨rfl, rfl⟩, hp, hr⟩
      exact ⟨permission, hp, bindRule, hr, rfl, rfl⟩

theorem rootForm_of_parseWith {limit : Nat} {t : Text} {r : BindRule}
    (h : BindRule.parseWith limit t = .ok r) : r.IsRootForm := by
  obtain ⟨ts, -, hrule⟩ := BindRule.isRule_of_parseWith h
  exact hrule.rootForm

theorem isTrimmed_body {s : Statement} (hform : s.bindRule.IsRootForm) : s.body.IsTrimmed := by
  obtain ⟨front, c, htext, hc⟩ := BindRule.exists_concat_text hform.isPlaced hform.isNot
  refine ⟨fun d hd => s.permission.isTrimmed_text.1 d ?_, ?_⟩
  · cases hpermission : s.permission.text with
    | nil =>
        have hne : s.permission.text ≠ [] := by simp [Permission.text]
        exact absurd hpermission hne
    | cons e es => simpa [body, hpermission] using hd
  · rw [body, htext, ← List.cons_append, ← List.append_assoc, List.getLast?_concat]
    rcases hc with rfl | rfl <;> simp [Text.isBlank]

/-- The first closing parenthesis of a statement is that of its permission. -/
theorem cut?_body (s : Statement) :
    Text.cut? ')' s.body = some (s.permission.front, ' ' :: s.bindRule.text) := by
  have hbody : s.body = s.permission.front ++ ')' :: (' ' :: s.bindRule.text) := by
    simp [body, Permission.text_eq]
  rw [hbody, Text.cut?_append_cons s.permission.closeParen_not_mem_front]

/-- A statement is read from its own text if its bind rule is and its rights are known. -/
theorem parseWith_body {limit : Nat} {s : Statement} (hknown : s.permission.rights.isKnown = true)
    (hrule : BindRule.parseWith limit s.bindRule.text = .ok s.bindRule) :
    parseWith limit s.body = .ok s := by
  rw [parseWith_eq_ok_iff, Text.trim_eq_self (isTrimmed_body (rootForm_of_parseWith hrule))]
  refine ⟨_, _, s.cut?_body, ?_, BindRule.parseWith_blank_cons_eq_ok_iff.2 hrule⟩
  rw [← Permission.text_eq, Permission.parse_text hknown]

/-- A statement with closed values is one part of a text split at semicolons. -/
theorem splitUnquoted_text {s : Statement} (hform : s.bindRule.IsRootForm) (hclosed : s.IsClosed)
    (t : Text) :
    Text.splitUnquoted ';' (s.text ++ t) = s.body :: Text.splitUnquoted ';' t := by
  have hpieces : (s.bindRule.pieces false).flatMap Piece.text = s.bindRule.text := by
    rw [BindRule.text_pieces false _ hform.isPlaced hform.isNot]
    rfl
  have hmem (c : Condition) (hc : .condition c ∈ s.bindRule.pieces false) :
      c.value.text.isClosed = true := by
    refine hclosed c ?_
    rw [← BindRule.conditions_pieces false s.bindRule]
    exact Piece.mem_filterMap_condition?.2 hc
  have hend : Text.splitUnquotedFrom ';' false (';' :: t) = _ :=
    Text.splitUnquotedFrom_delimiter (by decide) (by decide) t
  have hrule := Piece.splitUnquotedFrom_pieces hmem hend
  rw [hpieces, List.append_nil] at hrule
  have hall := Text.splitUnquotedFrom_append s.permission.isPassed_of_mem_spaced hrule
  simpa [text, body, Text.splitUnquoted] using hall

end Statement

namespace Policy

theorem segments_blank_cons (t : Text) : segments (' ' :: t) = segments t := by
  obtain ⟨part, parts, hparts⟩ := Text.exists_splitUnquotedFrom ';' false t
  have hcons : Text.splitUnquotedFrom ';' false (' ' :: t) = (' ' :: part) :: parts := by
    rw [Text.splitUnquotedFrom_cons (by decide) (by decide), if_neg (by decide), hparts,
      Text.consPart]
  rw [segments, segments, Text.splitUnquoted, Text.splitUnquoted, hcons, hparts, List.map_cons,
    List.map_cons, Text.trim_cons_blank (by decide)]

theorem segments_text_append {s : Statement} (hform : s.bindRule.IsRootForm) (hclosed : s.IsClosed)
    (t : Text) : segments (s.text ++ t) = s.body :: segments t := by
  have hne : s.body ≠ [] := by simp [Statement.body, Permission.text]
  rw [segments, Statement.splitUnquoted_text hform hclosed, List.map_cons,
    Text.trim_eq_self (Statement.isTrimmed_body hform), List.filter_cons_of_pos (by simpa using hne),
    ← segments]

/-- A written policy is its statements, each with a blank in front of it but the first. -/
theorem blank_cons_text {p : Policy} (hne : p.statements ≠ []) :
    ' ' :: p.text = p.statements.flatMap fun s => ' ' :: s.text := by
  obtain ⟨s, ss, hss⟩ := List.exists_cons_of_ne_nil hne
  rw [text, hss, List.map_cons, Text.join_cons, List.flatMap_cons, List.flatMap_map]
  rfl

/-- The segments of written statements with closed values are the statements. -/
theorem segments_flatMap {ss : List Statement} (hform : ∀ s ∈ ss, s.bindRule.IsRootForm)
    (hclosed : ∀ s ∈ ss, s.IsClosed) :
    segments (ss.flatMap fun s => ' ' :: s.text) = ss.map Statement.body := by
  induction ss with
  | nil => rfl
  | cons s ss ih =>
      have hrest := ih (fun r hr => hform r (List.mem_cons_of_mem s hr))
        fun r hr => hclosed r (List.mem_cons_of_mem s hr)
      rw [List.flatMap_cons, List.cons_append, segments_blank_cons,
        segments_text_append (hform s (by simp)) (hclosed s (by simp)), hrest, List.map_cons]

theorem trim_of_mem_segments {t segment : Text} (h : segment ∈ segments t) :
    Text.trim segment = segment := by
  obtain ⟨part, -, rfl⟩ := List.mem_map.1 (List.mem_filter.1 h).1
  exact Text.trim_trim part

theorem pushSegments_eq_ok_iff {limit : Nat} {p q : Policy} {ts : List Text} :
    (pushSegments limit p ts).result = .ok q ↔
      ∃ ss, List.Forall₂ (fun t s => Statement.parseWith limit t = .ok s) ts ss ∧
        ⟨p.statements ++ ss⟩ = q := by
  induction ts generalizing p with
  | nil => simp [pushSegments]
  | cons t ts ih =>
      simp only [pushSegments, Journaled.result_bind, Journaled.result_leave, Outcome.bind_eq_ok, ih,
        push, List.append_assoc, List.singleton_append, List.forall₂_cons_left_iff]
      constructor
      · rintro ⟨-, -, s, hs, ss, hss, rfl⟩
        exact ⟨s :: ss, ⟨s, ss, hs, hss, rfl⟩, rfl⟩
      · rintro ⟨_, ⟨s, ss, hs, hss, rfl⟩, rfl⟩
        exact ⟨(), trivial, s, hs, ss, hss, rfl⟩

theorem parseWith_eq_ok_iff {limit : Nat} {t : Text} {p : Policy} :
    parseWith limit t = .ok p ↔
      List.Forall₂ (fun t s => Statement.parseWith limit t = .ok s) (segments t) p.statements ∧
        p.statements ≠ [] := by
  obtain ⟨statements⟩ := p
  simp only [parseWith, journaledParse, Journaled.result_bind, Outcome.bind_eq_ok,
    pushSegments_eq_ok_iff]
  constructor
  · rintro ⟨_, ⟨ss, hss, rfl⟩, h⟩
    split at h
    · cases h
    · rename_i hne
      cases h
      exact ⟨hss, by simpa using hne⟩
  · rintro ⟨hss, hne⟩
    refine ⟨⟨statements⟩, ⟨statements, hss, rfl⟩, ?_⟩
    rw [if_neg (by simpa using hne)]
    rfl

theorem parseWith_blank_cons_eq_ok_iff {limit : Nat} {t : Text} {p : Policy} :
    parseWith limit (' ' :: t) = .ok p ↔ parseWith limit t = .ok p := by
  rw [parseWith_eq_ok_iff, parseWith_eq_ok_iff, segments_blank_cons]

/-- The semicolons outside quotes part a written policy into its statements. -/
theorem segments_text {p : Policy} (hne : p.statements ≠ [])
    (hform : ∀ s ∈ p.statements, s.bindRule.IsRootForm)
    (hclosed : ∀ s ∈ p.statements, s.IsClosed) :
    segments p.text = p.statements.map Statement.body := by
  rw [← segments_blank_cons, blank_cons_text hne, segments_flatMap hform hclosed]

/-- A policy is read from its own text if its values are closed and its bind rules are read back. -/
theorem parseWith_text {limit : Nat} {p : Policy} (hne : p.statements ≠ [])
    (hknown : ∀ s ∈ p.statements, s.permission.rights.isKnown = true)
    (hclosed : ∀ s ∈ p.statements, s.IsClosed)
    (hrule : ∀ s ∈ p.statements, BindRule.parseWith limit s.bindRule.text = .ok s.bindRule) :
    parseWith limit p.text = .ok p := by
  have hform (s : Statement) (hs : s ∈ p.statements) : s.bindRule.IsRootForm :=
    Statement.rootForm_of_parseWith (hrule s hs)
  rw [parseWith_eq_ok_iff, segments_text hne hform hclosed]
  refine ⟨?_, hne⟩
  rw [List.forall₂_map_left_iff, List.forall₂_same]
  exact fun s hs => Statement.parseWith_body (hknown s hs) (hrule s hs)

/--
Writing statements with known rights, closed values and bind rules that are read back keeps them:
each is one segment of the text, in order, and the segments are read as the same list.
-/
theorem text_keeps_statements {limit : Nat} {p : Policy} (hne : p.statements ≠ [])
    (hknown : ∀ s ∈ p.statements, s.permission.rights.isKnown = true)
    (hclosed : ∀ s ∈ p.statements, s.IsClosed)
    (hrule : ∀ s ∈ p.statements, BindRule.parseWith limit s.bindRule.text = .ok s.bindRule) :
    segments p.text = p.statements.map Statement.body ∧ parseWith limit p.text = .ok p := by
  have hform (s : Statement) (hs : s ∈ p.statements) : s.bindRule.IsRootForm :=
    Statement.rootForm_of_parseWith (hrule s hs)
  exact ⟨segments_text hne hform hclosed, parseWith_text hne hknown hclosed hrule⟩

/-- A condition whose name holds a quote, parentheses and what looks like another statement. -/
def baitCondition : Condition :=
  .make .userDn .eq (.names ⟨[.dn ⟨"cn=a\\\"; deny(all) \\\"b,dc=c".toList⟩]⟩)

/-- A condition whose value behind the hash holds semicolons, parentheses and a quote. -/
def bindingCondition : Condition :=
  .make .userAttr .ne (.binding ⟨none, "owner".toList, .value "(x;)\\\";".toList⟩)

/-- Two statements whose values hold the marks that part statements. -/
def baited : Policy :=
  ⟨[⟨⟨.allow, .ofList [.read, .search]⟩, .condition baitCondition⟩,
    ⟨⟨.deny, .all⟩, .condition bindingCondition⟩]⟩

theorem text_keeps_statements_of_baited :
    segments baited.text = baited.statements.map Statement.body ∧
      parseWith 0 baited.text = .ok baited := by
  have hbait : baitCondition.value.text.isClosed = true :=
    Text.isClosed_iff.2 ⟨by decide, by decide⟩
  have hbinding : bindingCondition.value.text.isClosed = true :=
    Text.isClosed_iff.2 ⟨by decide, by decide⟩
  refine text_keeps_statements (List.cons_ne_nil _ _) (by decide) ?_ ?_
  · refine List.forall_mem_cons.2 ⟨?_, List.forall_mem_cons.2 ⟨?_, by simp⟩⟩
    · intro c hc
      rw [List.mem_singleton.1 hc]
      exact hbait
    · intro c hc
      rw [List.mem_singleton.1 hc]
      exact hbinding
  · refine List.forall_mem_cons.2 ⟨?_, List.forall_mem_cons.2 ⟨?_, by simp⟩⟩
    · exact BindRule.parseWith_text_condition (c := baitCondition) hbait rfl
    · exact BindRule.parseWith_text_condition (c := bindingCondition) hbinding rfl

end Policy

end DirectoryAccess
