import DirectoryAccess.Proofs.Value.Target

/-!
# The shape of values that were read

The reader of a keyword gives values of the shape that the keyword interprets,
and no value that is empty.
-/

namespace DirectoryAccess

theorem NameList.hasUrl_of_read {t : Text} {l : NameList} (h : read false t = .ok l) :
    l.hasUrl = false := by
  rw [hasUrl, List.any_eq_false]
  intro e he
  obtain ⟨entry, -, hread⟩ := exists_of_mem_items h he
  rcases NameEntry.read_eq_ok_iff.1 hread with ⟨s, -, rfl⟩ | ⟨-, -, hurls, -⟩ | ⟨-, -, d, -, rfl⟩
  · exact Bool.false_ne_true
  · cases hurls
  · exact Bool.false_ne_true

theorem AddressList.addresses_ne_nil_of_read {t : Text} {l : AddressList} (h : read t = .ok l) :
    l.addresses ≠ [] := by
  obtain ⟨hne, -, rfl⟩ := read_eq_ok_iff.1 h
  rw [foldl_push]
  exact Distinct.ofList_ne_nil hne

theorem DomainList.names_ne_nil_of_read {t : Text} {l : DomainList} (h : read t = .ok l) :
    l.names ≠ [] := by
  obtain ⟨hne, -, rfl⟩ := read_eq_ok_iff.1 h
  rw [foldl_push]
  exact Distinct.ofList_ne_nil hne

theorem AttributeList.isEmpty_of_read {t : Text} {l : AttributeList} (h : read t = .ok l) :
    l.isEmpty = false := by
  rcases read_eq_ok_iff.1 h with ⟨-, rfl⟩ | ⟨-, hne, -, rfl⟩
  · rfl
  · have hkept := @Distinct.ofList_ne_nil Text Text.sameFold _ hne
    simpa [isEmpty] using hkept

namespace Value

/-- The value has the shape that the bind keyword interprets and is not empty. -/
def SuitsBind (v : Value) (k : BindKeyword) : Prop :=
  v.fitsBind k = true ∧ v.isEmpty = false

/-- The value has the shape that the target keyword interprets and is not empty. -/
def SuitsTarget (v : Value) (k : TargetKeyword) : Prop :=
  v.fitsTarget k = true ∧ v.isEmpty = false

theorem suitsBind_of_parseBind {k : BindKeyword} {raw : Text} {v : Value}
    (h : parseBind k raw = .ok v) : v.SuitsBind k := by
  obtain ⟨-, h⟩ := parseBind_eq_ok_iff.1 h
  cases k
  case userDn | roleDn | groupDn =>
    obtain ⟨l, hl, rfl⟩ := h
    exact ⟨rfl, List.isEmpty_eq_false_iff.2 (NameList.items_ne_nil_of_read hl)⟩
  case userAttr | groupAttr =>
    obtain ⟨b, -, rfl⟩ := h
    exact ⟨rfl, rfl⟩
  case ip =>
    obtain ⟨l, hl, rfl⟩ := h
    exact ⟨rfl, List.isEmpty_eq_false_iff.2 (AddressList.addresses_ne_nil_of_read hl)⟩
  case dns =>
    obtain ⟨l, hl, rfl⟩ := h
    exact ⟨rfl, List.isEmpty_eq_false_iff.2 (DomainList.names_ne_nil_of_read hl)⟩
  case dayOfWeek =>
    obtain ⟨s, hs, rfl⟩ := h
    obtain ⟨hne, rfl⟩ := DaySet.read_eq_ok_iff.1 hs
    exact ⟨rfl, hne⟩
  case timeOfDay =>
    obtain ⟨t, -, rfl⟩ := h
    exact ⟨rfl, rfl⟩
  case authMethod =>
    obtain ⟨m, -, rfl⟩ := h
    exact ⟨rfl, rfl⟩
  case ssf =>
    obtain ⟨s, -, rfl⟩ := h
    exact ⟨rfl, rfl⟩

theorem suitsTarget_of_parseTarget {k : TargetKeyword} {raws : List Text} {v : Value}
    (h : parseTarget k raws = .ok v) : v.SuitsTarget k := by
  obtain ⟨-, h⟩ := parseTarget_eq_ok_iff.1 h
  cases k
  case target | targetTo | targetFrom =>
    obtain ⟨l, hl, rfl⟩ := h
    refine ⟨?_, List.isEmpty_eq_false_iff.2 (NameList.items_ne_nil_of_read hl)⟩
    simp only [fitsTarget, NameList.hasUrl_of_read hl, Bool.not_false]
  case targetAttr =>
    obtain ⟨l, hl, rfl⟩ := h
    exact ⟨rfl, AttributeList.isEmpty_of_read hl⟩
  case targetControl | extOp =>
    obtain ⟨l, hl, rfl⟩ := h
    exact ⟨rfl, List.isEmpty_eq_false_iff.2 (ObjectIdList.items_ne_nil_of_read hl)⟩
  case targetScope =>
    obtain ⟨raw, s, -, -, rfl⟩ := h
    exact ⟨rfl, rfl⟩
  case targetFilter =>
    obtain ⟨raw, f, -, -, rfl⟩ := h
    exact ⟨rfl, rfl⟩
  case targetAttrFilters =>
    obtain ⟨raw, c, -, hc, rfl⟩ := h
    exact ⟨rfl, (FilterChanges.read_eq_ok_iff.1 hc).2⟩

end Value

end DirectoryAccess
