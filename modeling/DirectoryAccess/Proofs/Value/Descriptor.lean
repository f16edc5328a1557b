import DirectoryAccess.Proofs.Value.Target

/-!
# The characters of attribute descriptors

An attribute descriptor is made of letters, digits and three marks, so that the
marks around it in a binding or in a condition on values never stand inside it.
-/

namespace DirectoryAccess

namespace Text

theorem eq_or_mem_of_mem_splitOn {d c : Char} {t : Text} (h : c ∈ t) :
    c = d ∨ ∃ p ∈ splitOn d t, c ∈ p := by
  rw [← join_splitOn d t] at h
  rcases mem_join h with h | h
  · exact Or.inl (List.mem_singleton.1 h)
  · exact Or.inr h

def isDescriptorChar (c : Char) : Bool :=
  isNameChar c || c == ';' || c == '.'

theorem isDescriptorChar_of_isNameChar {c : Char} (h : isNameChar c = true) :
    isDescriptorChar c = true := by
  simp [isDescriptorChar, h]

theorem isNameChar_of_mem_isShortName {t : Text} (h : isShortName t = true) :
    ∀ c ∈ t, isNameChar c = true := by
  cases t with
  | nil => cases h
  | cons c cs =>
      rw [isShortName, Bool.and_eq_true, List.all_eq_true] at h
      intro d hd
      rcases List.mem_cons.1 hd with rfl | hd
      · simp [isNameChar, Char.isAlphanum, h.1]
      · exact h.2 d hd

theorem isDescriptorChar_of_isOptionedName {t : Text} (h : isOptionedName t = true) :
    ∀ c ∈ t, isDescriptorChar c = true := by
  intro c hc
  unfold isOptionedName at h
  split at h
  · cases h
  · rename_i name options hsplit
    rw [Bool.and_eq_true, List.all_eq_true] at h
    rcases eq_or_mem_of_mem_splitOn (d := ';') hc with rfl | ⟨part, hpart, hc⟩
    · decide
    · apply isDescriptorChar_of_isNameChar
      rw [hsplit] at hpart
      rcases List.mem_cons.1 hpart with rfl | hpart
      · exact isNameChar_of_mem_isShortName h.1 c hc
      · have hoption := h.2 part hpart
        rw [isAttributeOption, Bool.and_eq_true, List.all_eq_true] at hoption
        exact hoption.2 c hc

theorem isDescriptorChar_of_objectId {t : Text} {o : ObjectId} (h : ObjectId.read t = .ok o) :
    ∀ c ∈ o.text, isDescriptorChar c = true := by
  obtain ⟨-, harcs, rfl⟩ := ObjectId.read_eq_ok_iff.1 h
  intro c hc
  rcases eq_or_mem_of_mem_splitOn (d := '.') hc with rfl | ⟨arc, harc, hc⟩
  · decide
  · have hdigits := (ObjectId.isDigit_of_arcFault? (harcs arc harc)).2
    rw [List.all_eq_true] at hdigits
    apply isDescriptorChar_of_isNameChar
    simp [isNameChar, Char.isAlphanum, hdigits c hc]

/-- A trimmed descriptor holds none but its characters. -/
theorem isDescriptorChar_of_mem {t : Text} (htrim : trim t = t)
    (h : isAttributeDescriptor t = true) : ∀ c ∈ t, isDescriptorChar c = true := by
  rw [isAttributeDescriptor, Bool.or_eq_true] at h
  rcases h with h | h
  · exact isDescriptorChar_of_isOptionedName h
  · unfold ObjectId.accepts at h
    cases hread : ObjectId.read t with
    | error e =>
        rw [hread] at h
        cases h
    | ok o =>
        have hchars := isDescriptorChar_of_objectId hread
        obtain ⟨-, -, rfl⟩ := ObjectId.read_eq_ok_iff.1 hread
        rwa [htrim] at hchars

/-- A mark that is no character of a descriptor stands in none. -/
theorem not_mem_of_isAttributeDescriptor {d : Char} (hd : isDescriptorChar d = false) {t : Text}
    (htrim : trim t = t) (h : isAttributeDescriptor t = true) : d ∉ t := by
  intro hmem
  rw [isDescriptorChar_of_mem htrim h d hmem] at hd
  cases hd

end Text

end DirectoryAccess
