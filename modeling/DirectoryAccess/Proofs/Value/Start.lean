import DirectoryAccess.Proofs.Token.Joined
import DirectoryAccess.Proofs.Value.Bind
import DirectoryAccess.Proofs.Value.Target

/-!
# How the values of conditions start

The text of a value that was read for a condition starts with a letter, a digit
or a mark of a pattern.  So what stands behind the quote that opens the value is
neither white space nor a semicolon.
-/

namespace DirectoryAccess

namespace Text

/-- The text starts with a character that is neither white space nor a semicolon. -/
def StartsSolid (t : Text) : Prop :=
  ∃ c rest, t = c :: rest ∧ isBlank c = false ∧ c ≠ ';'

theorem StartsSolid.append {s : Text} (h : s.StartsSolid) (t : Text) : (s ++ t).StartsSolid := by
  obtain ⟨c, rest, rfl, hblank, hsemicolon⟩ := h
  exact ⟨c, rest ++ t, rfl, hblank, hsemicolon⟩

theorem StartsSolid.join {part : Text} (h : part.StartsSolid) (separator : Text)
    (parts : List Text) : (join separator (part :: parts)).StartsSolid := by
  rw [join_cons]
  exact h.append _

theorem startsSolid_of_startsValue {t : Text} (h : t.startsValue = true) : t.StartsSolid := by
  cases t with
  | nil => cases h
  | cons c t =>
      refine ⟨c, t, rfl, ?_, ?_⟩
      · rw [startsValue, Char.isAlphanum, Bool.or_eq_true, Bool.or_eq_true, Bool.or_eq_true] at h
        rcases h with ((halpha | hdigit) | hstar) | hparen
        · exact TargetToken.isBlank_of_isKeywordChar (by simp [TargetToken.isKeywordChar, halpha])
        · exact isBlank_of_isDigit hdigit
        · rw [beq_iff_eq.1 hstar]
          rfl
        · rw [beq_iff_eq.1 hparen]
          rfl
      · rintro rfl
        cases h

end Text

open Text (StartsSolid)

theorem NameList.startsSolid_text {l : NameList} (hne : l.items ≠ []) : l.text.StartsSolid := by
  obtain ⟨e, es, hitems⟩ := List.exists_cons_of_ne_nil hne
  have hstarts : e.text.startsValue = true := by cases e <;> rfl
  rw [text, hitems, List.map_cons]
  exact (Text.startsSolid_of_startsValue hstarts).join _ _

theorem AttributeBinding.startsSolid_text_of_read {t : Text} {b : AttributeBinding}
    (h : read t = .ok b) : b.text.StartsSolid := by
  obtain ⟨binding, name, value, -, -, hname, hattr, -⟩ := read_eq_ok_iff.1 h
  unfold text
  split
  · have htrim : Text.trim b.attr = b.attr := by rw [← hname, Text.trim_trim]
    exact (Text.startsSolid_of_startsValue
      (Text.startsValue_of_isAttributeDescriptor htrim hattr)).append _
  · exact Text.startsSolid_of_startsValue rfl

theorem AddressList.startsSolid_of_isPattern {p : Text} (hentry : Text.IsCommaEntry p)
    (h : isPattern p = true) : p.StartsSolid := by
  obtain ⟨c, cs, rfl⟩ := List.exists_cons_of_ne_nil hentry.ne_nil
  refine ⟨c, cs, rfl, hentry.trimmed.1 c rfl, ?_⟩
  rintro rfl
  rw [isPattern, Bool.or_eq_true] at h
  rcases h with hshort | hlong
  · rw [isShortPattern, Bool.and_eq_true, List.all_cons] at hshort
    cases hshort.1
  · rw [isLongPattern, Bool.and_eq_true, List.all_cons] at hlong
    cases hlong.2

theorem AddressList.startsSolid_text_of_read {t : Text} {l : AddressList} (h : read t = .ok l) :
    l.text.StartsSolid := by
  obtain ⟨hne, hall, rfl⟩ := read_eq_ok_iff.1 h
  obtain ⟨p, ps, hentries⟩ := List.exists_cons_of_ne_nil hne
  have hmem : p ∈ Text.commaEntries t := by simp [hentries]
  obtain ⟨kept, hkept⟩ : ∃ kept, Distinct.ofList Text.sameFold (p :: ps) = p :: kept :=
    Distinct.exists_ofList_cons p ps
  rw [text, foldl_push_empty, hentries, hkept]
  exact (startsSolid_of_isPattern (Text.isCommaEntry_of_mem hmem) (hall p hmem)).join _ _

theorem DomainList.startsSolid_of_nameFault? {name : Text} (h : nameFault? name = none) :
    name.StartsSolid := by
  simp only [nameFault?] at h
  split at h
  · cases h
  · split at h
    · cases h
    · rw [Option.map_eq_none_iff, List.find?_eq_none] at h
      obtain ⟨label, labels, hsplit⟩ := List.exists_cons_of_ne_nil (Text.splitOn_ne_nil '.' name)
      have hlabel : isLabel label = true := by simpa using h label (by simp [hsplit])
      obtain ⟨rest, rfl⟩ := Text.eq_append_of_splitOn hsplit
      refine StartsSolid.append (Text.startsSolid_of_startsValue ?_) rest
      cases label with
      | nil => cases hlabel
      | cons c cs =>
          rw [isLabel, Bool.or_eq_true] at hlabel
          rcases hlabel with hstar | hchars
          · rw [beq_iff_eq.1 hstar]
            rfl
          · simp only [Bool.and_eq_true] at hchars
            have hfirst : c.isAlphanum = true := hchars.1.2
            simp [Text.startsValue, hfirst]

theorem DomainList.startsSolid_text_of_read {t : Text} {l : DomainList} (h : read t = .ok l) :
    l.text.StartsSolid := by
  obtain ⟨hne, hall, rfl⟩ := read_eq_ok_iff.1 h
  obtain ⟨name, names, hentries⟩ := List.exists_cons_of_ne_nil hne
  obtain ⟨kept, hkept⟩ : ∃ kept, Distinct.ofList Text.sameFold (name :: names) = name :: kept :=
    Distinct.exists_ofList_cons name names
  rw [text, foldl_push_empty, hentries, hkept]
  exact (startsSolid_of_nameFault? (hall name (by simp [hentries]))).join _ _

theorem DaySet.startsSolid_text_of_read {t : Text} {s : DaySet} (h : read t = .ok s) :
    s.text.StartsSolid := by
  obtain ⟨hempty, rfl⟩ := read_eq_ok_iff.1 h
  cases hdays : (ofList ((Text.commaEntries t).filterMap Day.ofName?)).days with
  | nil =>
      rw [← ofList_days, hdays] at hempty
      cases hempty
  | cons d ds =>
      have hstarts : d.abbreviation.startsValue = true := by cases d <;> rfl
      rw [text, hdays, List.map_cons]
      exact (Text.startsSolid_of_startsValue hstarts).join _ _

theorem Text.startsSolid_ofNat (n : Nat) : (ofNat n).StartsSolid :=
  startsSolid_of_startsValue <| startsValue_of_digits (ofNat_ne_nil n) <|
    List.all_eq_true.2 fun _ hc => isDigit_of_mem_ofNat hc

theorem ClockTime.startsSolid_text (t : ClockTime) : t.text.StartsSolid := by
  have htext : t.text = Text.padded 4 t.value := rfl
  rw [htext, Text.padded]
  cases 4 - (Text.ofNat t.value).length with
  | zero => exact Text.startsSolid_ofNat t.value
  | succ n => exact Text.startsSolid_of_startsValue rfl

/-- What stands behind the quote that opens a value is neither white space nor a semicolon. -/
theorem Value.startsSolid_of_parseBind {k : BindKeyword} {raw : Text} {v : Value}
    (h : parseBind k raw = .ok v) : v.text.StartsSolid := by
  obtain ⟨-, h⟩ := parseBind_eq_ok_iff.1 h
  cases k
  case userDn | roleDn | groupDn =>
    obtain ⟨l, hl, rfl⟩ := h
    exact NameList.startsSolid_text (NameList.items_ne_nil_of_read hl)
  case userAttr | groupAttr =>
    obtain ⟨b, hb, rfl⟩ := h
    exact AttributeBinding.startsSolid_text_of_read hb
  case ip =>
    obtain ⟨l, hl, rfl⟩ := h
    exact AddressList.startsSolid_text_of_read hl
  case dns =>
    obtain ⟨l, hl, rfl⟩ := h
    exact DomainList.startsSolid_text_of_read hl
  case dayOfWeek =>
    obtain ⟨s, hs, rfl⟩ := h
    exact DaySet.startsSolid_text_of_read hs
  case timeOfDay =>
    obtain ⟨t, -, rfl⟩ := h
    exact t.startsSolid_text
  case authMethod =>
    obtain ⟨m, -, rfl⟩ := h
    exact Text.startsSolid_of_startsValue (by cases m <;> rfl)
  case ssf =>
    obtain ⟨s, -, rfl⟩ := h
    exact Text.startsSolid_ofNat s.value.val

end DirectoryAccess
