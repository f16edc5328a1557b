import DirectoryAccess.Proofs.Text.Entries
import DirectoryAccess.Proofs.Value.Target

/-!
# Quoting of target values

A target keyword whose value is a list takes its entries as they come, in one
quoted text or in several.  The texts are joined with bars and split at bars
again, and neither moves a boundary: the value is made of the entries of each text
in turn.
-/

namespace DirectoryAccess

/-- Holds for the keywords whose values are lists of entries between bars. -/
def TargetKeyword.takesList : TargetKeyword → Bool
  | target | targetTo | targetFrom | targetAttr | targetControl | extOp => true
  | targetScope | targetFilter | targetAttrFilters => false

namespace Value

/-- One or more entries read as the list that is the value of the target keyword. -/
def EntriesReadAs (k : TargetKeyword) (entries : List Text) (v : Value) : Prop :=
  match k with
  | .target | .targetTo | .targetFrom =>
      ∃ items, List.Forall₂ (fun e item => NameEntry.read false e = .ok item) entries items ∧
        items ≠ [] ∧ names (.ofList items) = v
  | .targetAttr =>
      (entries = [['*']] ∧ attributes .everything = v) ∨
        (entries ≠ [['*']] ∧ entries ≠ [] ∧
          (∀ e ∈ entries, e ≠ ['*'] ∧ Text.isAttributeDescriptor e = true) ∧
          attributes ⟨false, Distinct.ofList Text.sameFold entries⟩ = v)
  | .targetControl | .extOp =>
      ∃ ids, List.Forall₂ (fun e id => ObjectId.read e = .ok id) entries ids ∧
        ids ≠ [] ∧ objectIds ⟨Distinct.ofList (· == ·) ids⟩ = v
  | .targetScope | .targetFilter | .targetAttrFilters => False

theorem EntriesReadAs.ne_nil {k : TargetKeyword} {entries : List Text} {v : Value}
    (h : EntriesReadAs k entries v) : entries ≠ [] := by
  rintro rfl
  cases k
  case target | targetTo | targetFrom | targetControl | extOp =>
    obtain ⟨found, hfound, hne, -⟩ := h
    exact hne (List.forall₂_nil_left_iff.1 hfound)
  case targetAttr =>
    rcases h with ⟨hstar, -⟩ | ⟨-, hne, -⟩
    · cases hstar
    · exact hne rfl
  case targetScope | targetFilter | targetAttrFilters => exact h

variable {k : TargetKeyword}

theorem targetReadsAs_iff_entriesReadAs (hk : k.takesList = true) {raws : List Text} {v : Value} :
    TargetReadsAs k raws v ↔ EntriesReadAs k (raws.flatMap Text.entries) v := by
  rw [← Text.entries_join_eq_flatMap]
  cases k
  case target | targetTo | targetFrom =>
    simp only [TargetReadsAs, EntriesReadAs, NameList.read_eq_ok_iff, ← and_assoc,
      exists_exists_and_eq_and]
  case targetAttr =>
    simp only [TargetReadsAs, EntriesReadAs, AttributeList.read_eq_ok_iff, or_and_right,
      exists_or, and_assoc, exists_and_left, exists_eq_left']
  case targetControl | extOp =>
    simp only [TargetReadsAs, EntriesReadAs, ObjectIdList.read_eq_ok_iff, ← and_assoc,
      exists_exists_and_eq_and]
  case targetScope | targetFilter | targetAttrFilters => cases hk

/-- A list is read from its entries, however they are spread over the texts. -/
theorem parseTarget_eq_ok_iff_entriesReadAs (hk : k.takesList = true) {raws : List Text}
    {v : Value} :
    parseTarget k raws = .ok v ↔ EntriesReadAs k (raws.flatMap Text.entries) v := by
  rw [parseTarget_eq_ok_iff, targetReadsAs_iff_entriesReadAs hk, and_iff_right_iff_imp]
  intro h
  rw [← Bool.not_eq_true, List.all_eq_true]
  intro hblank
  refine h.ne_nil (List.flatMap_eq_nil_iff.2 fun raw hraw => ?_)
  exact Text.entries_of_isBlankText (hblank raw hraw)

/--
Two clauses of the same entries have the same value or are both refused, however the entries are
quoted; and the value is what the entries read as.
-/
theorem parseTarget_ignores_quoting (hk : k.takesList = true) {raws others : List Text}
    (h : raws.flatMap Text.entries = others.flatMap Text.entries) :
    ((∃ v, parseTarget k raws = .ok v ∧ parseTarget k others = .ok v) ∨
      ∃ e d, parseTarget k raws = .error e ∧ parseTarget k others = .error d) ∧
    ∀ v, parseTarget k raws = .ok v ↔ EntriesReadAs k (raws.flatMap Text.entries) v := by
  have hsame (v : Value) : parseTarget k raws = .ok v ↔ parseTarget k others = .ok v := by
    rw [parseTarget_eq_ok_iff_entriesReadAs hk, parseTarget_eq_ok_iff_entriesReadAs hk, h]
  refine ⟨?_, fun v => parseTarget_eq_ok_iff_entriesReadAs hk⟩
  cases hraws : parseTarget k raws with
  | ok v => exact .inl ⟨v, rfl, (hsame v).1 hraws⟩
  | error e =>
      cases hothers : parseTarget k others with
      | ok v =>
          rw [(hsame v).2 hothers] at hraws
          cases hraws
      | error d => exact .inr ⟨e, d, rfl, rfl⟩

/-- Two names that end and start with a bar, with more bars around them and between them. -/
def barredNames : List Text :=
  ["||ldap:///cn=a|".toList, "|| ||".toList, "cn=|b ||".toList]

def barredNamesTogether : List Text :=
  ["ldap:///cn=a| || cn=|b".toList]

theorem parseTarget_ignores_quoting_of_barredNames :
    TargetKeyword.target.takesList = true ∧
      barredNames.flatMap Text.entries = barredNamesTogether.flatMap Text.entries ∧
      ∃ v, parseTarget .target barredNames = .ok v ∧
        parseTarget .target barredNamesTogether = .ok v ∧
        v.text = "ldap:///cn=a| || ldap:///cn=|b".toList := by
  have hlist : TargetKeyword.target.takesList = true := rfl
  have hentries : barredNames.flatMap Text.entries = barredNamesTogether.flatMap Text.entries := by
    decide +kernel
  have hread : parseTarget .target barredNames =
      .ok (names ⟨[.dn ⟨"cn=a|".toList⟩, .dn ⟨"cn=|b".toList⟩]⟩) := rfl
  refine ⟨hlist, hentries, _, hread, ?_, rfl⟩
  rcases (parseTarget_ignores_quoting hlist hentries).1 with ⟨v, hraws, hothers⟩ | ⟨e, d, hraws, -⟩
  · rw [hread] at hraws
    rw [hothers, hraws]
  · rw [hread] at hraws
    cases hraws

end Value

end DirectoryAccess
