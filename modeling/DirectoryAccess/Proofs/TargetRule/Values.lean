import DirectoryAccess.Proofs.TargetRule.Rendering
import DirectoryAccess.Proofs.Value.Changes
import DirectoryAccess.Proofs.Value.Shape
import DirectoryAccess.Proofs.Value.Start

/-!
# Target values read back

What a clause writes between its quotes is read as its value again, with one
exception: conditions on changes, where a deletion is written behind an addition
that leaves a parenthesis open in the count.
-/

namespace DirectoryAccess

/-- No name of a list without URLs is read as another. -/
theorem NameList.map_written {l : NameList} (h : l.hasUrl = false) :
    (⟨l.items.map NameEntry.written⟩ : NameList) = l := by
  rw [hasUrl, List.any_eq_false] at h
  have hitems : l.items.map NameEntry.written = l.items.map id := by
    apply List.map_congr_left
    intro e he
    have hurl := h e he
    cases e with
    | special s => rfl
    | dn d => rfl
    | url u => exact absurd rfl hurl
  rw [hitems, List.map_id]

theorem ObjectId.read_text {t : Text} {o : ObjectId} (h : read t = .ok o) :
    read o.text = .ok o := by
  obtain ⟨hlength, harcs, rfl⟩ := read_eq_ok_iff.1 h
  rw [read_eq_ok_iff, Text.trim_trim]
  exact ⟨hlength, harcs, rfl⟩

theorem ObjectIdList.read_text {t : Text} {l : ObjectIdList} (h : read t = .ok l) :
    read l.text = .ok l := by
  have hentry (o : ObjectId) (ho : o ∈ l.items) := exists_of_mem_items h ho
  have hnonempty := items_ne_nil_of_read h
  have hdistinct : Distinct.ofList (· == ·) l.items = l.items := by
    obtain ⟨ids, -, -, rfl⟩ := read_eq_ok_iff.1 h
    exact Distinct.ofList_ofList ids
  have hentries : Text.entries l.text = l.items.map ObjectId.text := by
    apply Text.entries_join
    intro p hp
    obtain ⟨o, ho, rfl⟩ := List.mem_map.1 hp
    obtain ⟨entry, hmem, hread⟩ := hentry o ho
    obtain ⟨-, -, rfl⟩ := ObjectId.read_eq_ok_iff.1 hread
    have hbar := Text.isBarEntry_of_mem hmem
    dsimp only
    rwa [Text.trim_eq_self hbar.trimmed]
  refine read_eq_ok_iff.2 ⟨l.items, ?_, hnonempty, congrArg ObjectIdList.mk hdistinct⟩
  rw [hentries, List.forall₂_map_left_iff, List.forall₂_same]
  intro o ho
  obtain ⟨entry, -, hread⟩ := hentry o ho
  exact ObjectId.read_text hread

theorem AttributeList.read_text {t : Text} {l : AttributeList} (h : read t = .ok l) :
    read l.text = .ok l := by
  rcases read_eq_ok_iff.1 h with ⟨-, rfl⟩ | ⟨-, hne, hall, rfl⟩
  · rfl
  · have hsublist : ∀ e ∈ Distinct.ofList Text.sameFold (Text.entries t), e ∈ Text.entries t :=
      (Distinct.ofList_sublist _).subset
    have hkept := @Distinct.ofList_ne_nil Text Text.sameFold _ hne
    have hentries : Text.entries (text ⟨false, Distinct.ofList Text.sameFold (Text.entries t)⟩) =
        Distinct.ofList Text.sameFold (Text.entries t) :=
      Text.entries_join fun e he => Text.isBarEntry_of_mem (hsublist e he)
    rw [read_eq_ok_iff, hentries, Distinct.ofList_ofList]
    refine Or.inr ⟨fun hstar => ?_, hkept, fun e he => hall e (hsublist e he), rfl⟩
    have hmem : ['*'] ∈ Distinct.ofList Text.sameFold (Text.entries t) := by simp [hstar]
    exact (hall _ (hsublist _ hmem)).1 rfl

/-- Holds unless the value is of conditions whose deletions stand inside open parentheses. -/
def Value.isSeparable : Value → Bool
  | changes c => c.isSeparable
  | _ => true

theorem Text.isBlankText_of_startsValue {t : Text} (h : t.startsValue = true) :
    isBlankText t = false := by
  obtain ⟨c, rest, rfl, hfirst, -⟩ := startsSolid_of_startsValue h
  rw [← Bool.not_eq_true, isBlankText_iff_forall]
  intro hall
  rw [hall c (by simp)] at hfirst
  cases hfirst

namespace Clause

theorem targetReadsAs_quotedTexts {c : Clause} {raws : List Text}
    (h : Value.TargetReadsAs c.keyword raws c.value) :
    Value.TargetReadsAs c.keyword c.quotedTexts c.value ↔ c.value.isSeparable = true := by
  obtain ⟨k, op, v⟩ := c
  cases k
  case target | targetTo | targetFrom =>
    obtain ⟨l, hl, rfl⟩ := h
    refine iff_of_true ⟨l, ?_, rfl⟩ rfl
    have hread := NameList.read_text hl
    rwa [NameList.map_written (NameList.hasUrl_of_read hl)] at hread
  case targetControl | extOp =>
    obtain ⟨l, hl, rfl⟩ := h
    exact iff_of_true ⟨l, ObjectIdList.read_text hl, rfl⟩ rfl
  case targetAttr =>
    obtain ⟨l, hl, rfl⟩ := h
    refine iff_of_true ⟨l, ?_, rfl⟩ rfl
    have hread := AttributeList.read_text hl
    rwa [← Text.join_singleton " || ".toList l.text] at hread
  case targetScope =>
    obtain ⟨raw, s, -, -, rfl⟩ := h
    exact iff_of_true ⟨s.name, s, rfl, s.read_name, rfl⟩ rfl
  case targetFilter =>
    obtain ⟨raw, f, -, hf, rfl⟩ := h
    exact iff_of_true ⟨f.text, f, rfl, SearchFilter.read_text hf, rfl⟩ rfl
  case targetAttrFilters =>
    obtain ⟨raw, changes, -, hchanges, rfl⟩ := h
    rw [Value.isSeparable, ← FilterChanges.read_text_iff hchanges]
    constructor
    · rintro ⟨raw, again, hraw, hread, hsame⟩
      cases hraw
      cases hsame
      exact hread
    · exact fun hread => ⟨changes.text, changes, rfl, hread, rfl⟩

/--
The texts that a clause writes between quotes are read as its value exactly if
no parenthesis of an addition hides a deletion behind it.
-/
theorem parseTarget_quotedTexts_iff {c : Clause} {raws : List Text}
    (h : Value.parseTarget c.keyword raws = .ok c.value) :
    Value.parseTarget c.keyword c.quotedTexts = .ok c.value ↔ c.value.isSeparable = true := by
  obtain ⟨t, ts, htexts⟩ := List.exists_cons_of_ne_nil (quotedTexts_ne_nil h)
  have hstarts := startsValue_quotedTexts h t (by simp [htexts])
  have hblank : c.quotedTexts.all Text.isBlankText = false := by
    rw [htexts, List.all_cons, Text.isBlankText_of_startsValue hstarts, Bool.false_and]
  rw [Value.parseTarget_eq_ok_iff, and_iff_right hblank]
  exact targetReadsAs_quotedTexts (Value.parseTarget_eq_ok_iff.1 h).2

/-- Conditions of both kinds, written in the source with the deletion first. -/
def hiddenDeletion : Clause :=
  ⟨.targetAttrFilters, .eq, .changes
    ⟨[⟨"cn".toList, ⟨"(cn=a\\()".toList⟩⟩], [⟨"sn".toList, ⟨"(sn=b)".toList⟩⟩]⟩⟩

theorem parseTarget_hiddenDeletion :
    Value.parseTarget hiddenDeletion.keyword ["delete=sn:(sn=b),add=cn:(cn=a\\()".toList] =
      .ok hiddenDeletion.value := by
  rw [← Outcome.toOption_eq_some]
  decide +kernel

theorem parseTarget_quotedTexts_of_hiddenDeletion :
    Value.parseTarget hiddenDeletion.keyword ["delete=sn:(sn=b),add=cn:(cn=a\\()".toList] =
        .ok hiddenDeletion.value ∧
      (Value.parseTarget hiddenDeletion.keyword hiddenDeletion.quotedTexts =
        .ok hiddenDeletion.value ↔ hiddenDeletion.value.isSeparable = true) :=
  ⟨parseTarget_hiddenDeletion, parseTarget_quotedTexts_iff parseTarget_hiddenDeletion⟩

/-- The escaped parenthesis hides the comma in front of the deletion. -/
theorem hiddenDeletion_is_not_read_from_text :
    Value.parseTarget hiddenDeletion.keyword ["delete=sn:(sn=b),add=cn:(cn=a\\()".toList] =
        .ok hiddenDeletion.value ∧
      hiddenDeletion.quotedTexts = ["add=cn:(cn=a\\(),delete=sn:(sn=b)".toList] ∧
      Value.parseTarget hiddenDeletion.keyword hiddenDeletion.quotedTexts ≠
        .ok hiddenDeletion.value := by
  refine ⟨parseTarget_hiddenDeletion, rfl, fun hread => ?_⟩
  have hparsed := Value.parseTarget_eq_ok_iff.1 parseTarget_hiddenDeletion
  have hseparable := (targetReadsAs_quotedTexts hparsed.2).1 (Value.parseTarget_eq_ok_iff.1 hread).2
  exact absurd hseparable (by decide)

end Clause

end DirectoryAccess
