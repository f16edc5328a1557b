import DirectoryAccess.Proofs.BindRule.Limit
import DirectoryAccess.Proofs.Instruction.RoundTrip

/-!
# Instructions under a limit

The limit of the nesting only reaches the bind rules of an instruction.  What is
read under one limit is read, and as the same, under every greater one.
-/

namespace DirectoryAccess

variable {limit other : Nat} {t : Text}

theorem Statement.parseWith_mono {s : Statement} (h : parseWith limit t = .ok s)
    (hle : limit ≤ other) : parseWith other t = .ok s := by
  obtain ⟨front, rule, hcut, hpermission, hrule⟩ := parseWith_eq_ok_iff.1 h
  exact parseWith_eq_ok_iff.2 ⟨front, rule, hcut, hpermission, BindRule.parseWith_mono hrule hle⟩

theorem Policy.parseWith_mono {p : Policy} (h : parseWith limit t = .ok p)
    (hle : limit ≤ other) : parseWith other t = .ok p := by
  obtain ⟨hstatements, hne⟩ := parseWith_eq_ok_iff.1 h
  exact parseWith_eq_ok_iff.2
    ⟨hstatements.imp fun _ _ hs => Statement.parseWith_mono hs hle, hne⟩

namespace Instruction

theorem parseWith_mono {i : Instruction} (h : parseWith limit t = .ok i) (hle : limit ≤ other) :
    parseWith other t = .ok i := by
  obtain ⟨front, behind, targets, after, body, hcut, hstrip, htarget, hlabel, hbody, hpolicy⟩ :=
    parseWith_eq_ok_iff.1 h
  exact parseWith_eq_ok_iff.2 ⟨front, behind, targets, after, body, hcut, hstrip, htarget, hlabel,
    hbody, Policy.parseWith_mono hpolicy hle⟩

/--
A bind rule that is read keeps the limit, is read under exactly the limits that the nesting of its
text keeps, and is written with parentheses nested no deeper; an instruction that is read is read
under every greater limit.
-/
theorem nesting_limit_is_exact :
    (∀ (t : Text) (limit : Nat) (r : BindRule), BindRule.parseWith limit t = .ok r →
      BindRule.nesting t ≤ limit ∧
      (∀ other, BindRule.parseWith other t = .ok r ↔ BindRule.nesting t ≤ other) ∧
      r.text = (r.pieces false).flatMap Piece.text ∧
      r.writtenNesting ≤ BindRule.nesting t) ∧
    ∀ (t : Text) (limit other : Nat) (i : Instruction), parseWith limit t = .ok i →
      limit ≤ other → parseWith other t = .ok i := by
  constructor
  · intro t limit r h
    refine ⟨BindRule.nesting_le_of_parseWith h, BindRule.parseWith_eq_ok_iff_nesting_le h, ?_,
      BindRule.writtenNesting_le_of_parseWith h⟩
    exact (Statement.rootForm_of_parseWith h).text_pieces.symm
  · intro t limit other i h hle
    exact parseWith_mono h hle

def guardedCondition : Condition :=
  ⟨.userDn, .eq, .names ⟨[.special .anyone]⟩, true⟩

def bareCondition : Condition :=
  .make .ssf .ge (.strength ⟨⟨128, by decide⟩⟩)

/-- The operands of `crowdedPieces`, the first of them in parentheses twice. -/
def crowdedLevel : List Piece :=
  Piece.enclosed true ((BindRule.condition guardedCondition).pieces true) ++
    [.link .or, .condition bareCondition]

/-- The pieces of a text with more parentheses than its rule needs. -/
def crowdedPieces : List Piece :=
  Piece.enclosed true crowdedLevel

def crowdedRule : BindRule :=
  .or [.condition guardedCondition, .condition bareCondition] true

theorem tokens_crowdedPieces :
    BindToken.tokens (crowdedPieces.flatMap Piece.text) = .ok (BindRule.spelled crowdedPieces) := by
  have hcases (c : Condition) (hc : .condition c ∈ crowdedPieces) :
      c = guardedCondition ∨ c = bareCondition := by
    simpa [crowdedPieces, crowdedLevel, BindRule.pieces, Piece.enclosed, guardedCondition] using hc
  refine Piece.tokens_pieces (fun c hc => ?_) fun c hc => ?_
  · rcases hcases c hc with rfl | rfl <;> exact Text.isClosed_iff.2 ⟨by decide, by decide⟩
  · rcases hcases c hc with rfl | rfl <;> decide

theorem parseWith_crowdedPieces :
    BindRule.parseWith 3 (crowdedPieces.flatMap Piece.text) = .ok crowdedRule := by
  have hguarded (e : Nat) (he : 1 ≤ e) :
      BindRule.IsRule e (BindRule.spelled ((BindRule.condition guardedCondition).pieces true))
        (.condition guardedCondition) :=
    .single (BindRule.derives_condition (c := guardedCondition) rfl e he)
  have hbare (e : Nat) : BindRule.IsOperand e (BindRule.spelled [.condition bareCondition])
      (.condition bareCondition) :=
    .of_condition (BindRule.IsCondition.intro rfl rfl (List.cons_ne_nil _ _) (by decide) rfl rfl)
  have hlevel (e : Nat) (he : 2 ≤ e) : BindRule.IsRule e (BindRule.spelled crowdedLevel)
      (.or [.condition guardedCondition, .condition bareCondition] false) := by
    rw [crowdedLevel, BindRule.spelled_append]
    exact BindRule.level_alternatives (BindRule.isOperand_enclosed hguarded e he)
      (.or rfl (hbare e) .nil)
  exact BindRule.parseWith_of_isRule tokens_crowdedPieces
    (.single (BindRule.isOperand_enclosed hlevel 3 (Nat.le_refl 3)))

theorem nesting_limit_is_exact_of_crowdedPieces :
    BindRule.parseWith 3 (crowdedPieces.flatMap Piece.text) = .ok crowdedRule ∧
      (BindRule.parseWith 2 (crowdedPieces.flatMap Piece.text) ≠ .ok crowdedRule) ∧
      crowdedRule.writtenNesting ≤ 3 ∧
      parseWith 0 blankEndText = .ok blankEnd ∧ parseWith 1 blankEndText = .ok blankEnd := by
  have hnesting : BindRule.nesting (crowdedPieces.flatMap Piece.text) = 3 := by
    rw [BindRule.nesting, tokens_crowdedPieces]
    rfl
  obtain ⟨-, hexact, -, hwritten⟩ := nesting_limit_is_exact.1 _ _ _ parseWith_crowdedPieces
  rw [hnesting] at hexact hwritten
  refine ⟨parseWith_crowdedPieces, ?_, hwritten, parseWith_blankEndText, ?_⟩
  · rw [Ne, hexact]
    decide
  · exact nesting_limit_is_exact.2 _ 0 1 _ parseWith_blankEndText (Nat.zero_le 1)

end Instruction

end DirectoryAccess
