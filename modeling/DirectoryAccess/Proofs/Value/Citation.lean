import DirectoryAccess.Proofs.Error.Citation
import DirectoryAccess.Proofs.Outcome.Failing
import DirectoryAccess.Proofs.Value.Line

/-!
# What the readers of values cite

A reader of values that refuses a text on one line cites nothing but texts on
one line: the text itself, parts of it, or these in lower case.
-/

namespace DirectoryAccess

open Outcome
open Text (IsLine)

def ValueFault.CitesLines (f : ValueFault) : Prop :=
  ∀ t ∈ f.cited, IsLine t

open ValueFault (CitesLines)

variable {t raw : Text}

/-- What is said about a part is cited for the whole. -/
theorem failsOnlyWith_within {α : Type} {x : Except ValueFault α} (h : FailsOnlyWith CitesLines x)
    (subject : Subject) : FailsOnlyWith CitesLines (x.mapError (.within subject)) :=
  h.mapError fun _ hf => hf

namespace DistinguishedName

theorem citesLines_of_componentFault? {wildcards : Bool} {whole component : Text} {f : ValueFault}
    (h : componentFault? wildcards whole component = some f) (hwhole : IsLine whole)
    (hcomponent : IsLine component) : f.CitesLines := by
  unfold componentFault? at h
  split at h
  · cases h
    simpa [CitesLines, ValueFault.cited] using ⟨hcomponent.trim, hwhole⟩
  · rename_i name value hcut
    have hname := (hcomponent.cut? hcut).1.trim
    dsimp only at h
    split_ifs at h <;> cases h <;> simp [CitesLines, ValueFault.cited, hname, hwhole]

theorem failsOnlyWith_read (ht : IsLine t) (wildcards : Bool) :
    FailsOnlyWith CitesLines (read wildcards t) := by
  unfold read
  dsimp only
  split
  · exact .error (by simp [CitesLines, ValueFault.cited])
  · split
    · rename_i fault hfault
      obtain ⟨component, hcomponent, hfault⟩ := List.exists_of_findSome?_eq_some hfault
      obtain ⟨part, hpart, hcomponent⟩ := List.mem_flatMap.1 hcomponent
      have hline := (ht.trim.splitEscaped ',' part hpart).splitEscaped '+' component hcomponent
      exact .error (citesLines_of_componentFault? hfault ht.trim hline)
    · exact .ok _

end DistinguishedName

theorem ObjectId.failsOnlyWith_read (ht : IsLine t) : FailsOnlyWith CitesLines (read t) := by
  unfold read
  dsimp only
  split
  · exact .error (by simpa [CitesLines, ValueFault.cited] using ht.trim)
  · split
    · rename_i fault hfault
      obtain ⟨arc, -, hfault⟩ := List.exists_of_findSome?_eq_some hfault
      refine .error ?_
      unfold arcFault? at hfault
      split_ifs at hfault <;> cases hfault <;> simpa [CitesLines, ValueFault.cited] using ht.trim
    · exact .ok _

theorem SearchFilter.failsOnlyWith_read (ht : IsLine t) : FailsOnlyWith CitesLines (read t) := by
  have hwhole : IsLine (parenthesized (Text.trim t)) := by
    unfold parenthesized
    split
    · rename_i heq
      exact heq ▸ ht.trim
    · exact ht.trim.enclose true
  unfold read
  dsimp only
  split
  · exact .error (by simp [CitesLines, ValueFault.cited])
  · split
    · exact .ok _
    · exact .error (by simpa [CitesLines, ValueFault.cited] using hwhole)

theorem SearchScope.failsOnlyWith_read (ht : IsLine t) : FailsOnlyWith CitesLines (read t) := by
  unfold read
  dsimp only
  split
  · exact .ok _
  · exact .error (by simpa [CitesLines, ValueFault.cited] using ht.trim.lower)

namespace EntryUrl

theorem failsOnlyWith_optional {α : Type} {reader : Text → Except ValueFault α}
    (hreader : ∀ s, IsLine s → FailsOnlyWith CitesLines (reader s)) {t : Option Text}
    (ht : IsLineLeft t) : FailsOnlyWith CitesLines (optional reader t) := by
  unfold optional
  split
  · exact .ok none
  · rename_i s
    split
    · exact .ok none
    · exact (hreader _ (ht s rfl).trim).map

theorem failsOnlyWith_read (ht : IsLine t) : FailsOnlyWith CitesLines (read t) := by
  obtain ⟨hfirst, hrest⟩ := isLine_field ht
  obtain ⟨hsecond, hrest⟩ := isLine_nextField hrest
  obtain ⟨hthird, hlast⟩ := isLine_nextField hrest
  unfold read
  refine .bind ?_ fun name _ => .bind ?_ fun reach _ => .bind ?_ fun filter _ => .ok _
  · exact failsOnlyWith_within (DistinguishedName.failsOnlyWith_read hfirst true) _
  · exact failsOnlyWith_optional
      (fun s hs => failsOnlyWith_within (SearchScope.failsOnlyWith_read hs) _) hthird
  · exact failsOnlyWith_optional
      (fun s hs => failsOnlyWith_within (SearchFilter.failsOnlyWith_read hs) _) hlast

end EntryUrl

theorem NameEntry.failsOnlyWith_read (ht : IsLine t) (urls : Bool) :
    FailsOnlyWith CitesLines (read urls t) := by
  have hrest := isLine_withoutScheme ht
  unfold read
  dsimp only
  split
  · exact .ok _
  · split
    · split
      · exact (EntryUrl.failsOnlyWith_read hrest).map
      · exact .error (by simpa [CitesLines, ValueFault.cited] using ht)
    · exact (failsOnlyWith_within (DistinguishedName.failsOnlyWith_read hrest true) _).map

theorem NameList.failsOnlyWith_read (hraw : IsLine raw) (urls : Bool) :
    FailsOnlyWith CitesLines (read urls raw) := by
  unfold read
  refine .bind (.mapM fun t ht => ?_) fun items _ => ?_
  · exact NameEntry.failsOnlyWith_read (hraw.entry ht) urls
  · split
    · exact .error (by simpa [CitesLines, ValueFault.cited] using hraw)
    · exact .ok _

theorem InheritanceLevels.failsOnlyWith_read (ht : IsLine t) :
    FailsOnlyWith CitesLines (read t) := by
  have hlevel (token : Text) (htoken : IsLine token) :
      FailsOnlyWith CitesLines (readLevel token) := by
    have htrim := htoken.trim
    unfold readLevel
    split
    · rename_i c hc
      rw [hc] at htrim
      split
      · exact .ok _
      · exact .error (by simpa [CitesLines, ValueFault.cited] using htrim)
    · exact .error (by simpa [CitesLines, ValueFault.cited] using htrim)
  unfold read
  refine .bind (.mapM fun token htoken => ?_) fun found _ => ?_
  · exact hlevel token (ht.splitOn ',' token htoken)
  · dsimp only
    split
    · exact .error (by simp [CitesLines, ValueFault.cited])
    · exact .ok _

namespace AttributeBinding

theorem failsOnlyWith_readLevels (hraw : IsLine raw) :
    FailsOnlyWith CitesLines (readLevels raw) := by
  unfold readLevels
  split
  · exact .ok _
  · rename_i rest hstrip
    split
    · exact .error (by simpa [CitesLines, ValueFault.cited] using hraw)
    · rename_i digits after hcut
      have hdigits := ((hraw.stripFold? hstrip).cut? hcut).1
      refine .bind (failsOnlyWith_within (InheritanceLevels.failsOnlyWith_read hdigits) _) ?_
      intro levels _
      split
      · exact .ok _
      · exact .error (by simpa [CitesLines, ValueFault.cited] using hraw)

theorem failsOnlyWith_read (ht : IsLine t) : FailsOnlyWith CitesLines (read t) := by
  have hraw := ht.trim
  unfold read
  refine .bind (failsOnlyWith_readLevels hraw) ?_
  rintro ⟨levels, binding⟩ hlevels
  have hbinding := isLine_readLevels hlevels hraw
  dsimp only
  split
  · exact .error (by simpa [CitesLines, ValueFault.cited] using hraw)
  · rename_i name value hcut
    have hname := (hbinding.cut? hcut).1.trim
    split_ifs
    · exact .error (by simpa [CitesLines, ValueFault.cited] using hname)
    · exact .error (by simpa [CitesLines, ValueFault.cited] using hraw)
    · exact .error (by simpa [CitesLines, ValueFault.cited] using hraw)
    · exact .ok _

end AttributeBinding

theorem AddressList.failsOnlyWith_read (hraw : IsLine raw) :
    FailsOnlyWith CitesLines (read raw) := by
  unfold read
  dsimp only
  split
  · rename_i p hp
    have hline := hraw.commaEntry (List.mem_of_find?_eq_some hp)
    exact .error (by simpa [CitesLines, ValueFault.cited] using hline)
  · split
    · exact .error (by simpa [CitesLines, ValueFault.cited] using hraw)
    · exact .ok _

namespace DomainList

theorem citesLines_of_nameFault? {name : Text} {f : ValueFault} (h : nameFault? name = some f)
    (hname : IsLine name) : f.CitesLines := by
  unfold nameFault? at h
  dsimp only at h
  split_ifs at h
  · cases h
    simpa [CitesLines, ValueFault.cited] using hname
  · cases h
    simpa [CitesLines, ValueFault.cited] using hname
  · obtain ⟨label, hlabel, rfl⟩ := Option.map_eq_some_iff.1 h
    have hline := hname.splitOn '.' label (List.mem_of_find?_eq_some hlabel)
    simpa [CitesLines, ValueFault.cited] using ⟨hline, hname⟩

theorem failsOnlyWith_read (hraw : IsLine raw) : FailsOnlyWith CitesLines (read raw) := by
  unfold read
  dsimp only
  split
  · rename_i fault hfault
    obtain ⟨name, hname, hfault⟩ := List.exists_of_findSome?_eq_some hfault
    exact .error (citesLines_of_nameFault? hfault (hraw.commaEntry hname))
  · split
    · exact .error (by simpa [CitesLines, ValueFault.cited] using hraw)
    · exact .ok _

end DomainList

theorem DaySet.failsOnlyWith_read (hraw : IsLine raw) : FailsOnlyWith CitesLines (read raw) := by
  unfold read
  dsimp only
  split
  · exact .error (by simpa [CitesLines, ValueFault.cited] using hraw)
  · exact .ok _

theorem ClockTime.failsOnlyWith_read (ht : IsLine t) : FailsOnlyWith CitesLines (read t) := by
  have hmake (hour minute : UInt8) : FailsOnlyWith CitesLines (ofHourMinute hour minute) := by
    unfold ofHourMinute
    dsimp only
    split
    · exact .ok _
    · exact .error (by simp [CitesLines, ValueFault.cited])
  have hraw := ht.trim
  unfold read
  dsimp only
  split
  · split
    · exact hmake _ _
    · exact .error (by simpa [CitesLines, ValueFault.cited] using hraw)
  · exact .error (by simpa [CitesLines, ValueFault.cited] using hraw)

theorem AuthMethod.failsOnlyWith_read (ht : IsLine t) : FailsOnlyWith CitesLines (read t) := by
  unfold read
  split
  · exact .ok _
  · exact .error (by simpa [CitesLines, ValueFault.cited] using ht.trim)

theorem Strength.failsOnlyWith_read (ht : IsLine t) : FailsOnlyWith CitesLines (read t) := by
  unfold read
  split
  · exact .ok _
  · exact .error (by simpa [CitesLines, ValueFault.cited] using ht.trim)

theorem AttributeList.failsOnlyWith_read (hraw : IsLine raw) :
    FailsOnlyWith CitesLines (read raw) := by
  unfold read
  dsimp only
  split
  · exact .ok _
  · split
    · rename_i fault hfault
      obtain ⟨entry, hentry, hfault⟩ := List.exists_of_findSome?_eq_some hfault
      have hline := hraw.entry hentry
      refine .error ?_
      unfold entryFault? at hfault
      split_ifs at hfault <;> cases hfault <;> simp [CitesLines, ValueFault.cited, hline]
    · split
      · exact .error (by simpa [CitesLines, ValueFault.cited] using hraw)
      · exact .ok _

theorem ObjectIdList.failsOnlyWith_read (hraw : IsLine raw) :
    FailsOnlyWith CitesLines (read raw) := by
  unfold read
  refine .bind (.mapM fun entry hentry => ?_) fun ids _ => ?_
  · exact failsOnlyWith_within (ObjectId.failsOnlyWith_read (hraw.entry hentry)) _
  · split
    · exact .error (by simpa [CitesLines, ValueFault.cited] using hraw)
    · exact .ok _

theorem AttributeFilter.failsOnlyWith_read (hraw : IsLine raw) :
    FailsOnlyWith CitesLines (read raw) := by
  unfold read
  dsimp only
  split
  · exact .error (by simpa [CitesLines, ValueFault.cited] using hraw.trim)
  · rename_i name condition hcut
    obtain ⟨hname, hcondition⟩ := hraw.trim.cut? hcut
    split
    · exact .error (by simpa [CitesLines, ValueFault.cited] using hname.trim)
    · exact (failsOnlyWith_within (SearchFilter.failsOnlyWith_read hcondition) _).map

namespace FilterChanges

theorem failsOnlyWith_readOperation (hraw : IsLine raw) (seen : List Change) :
    FailsOnlyWith CitesLines (readOperation seen raw) := by
  unfold readOperation
  dsimp only
  split
  · exact .error (by simpa [CitesLines, ValueFault.cited] using hraw.trim)
  · rename_i spelling clauses hcut
    obtain ⟨hspelling, hclauses⟩ := hraw.trim.cut? hcut
    have hname := hspelling.trim.lower
    split
    · exact .error (by simpa [CitesLines, ValueFault.cited] using hname)
    · split
      · exact .error (by simpa [CitesLines, ValueFault.cited] using hname)
      · refine .bind (.mapM fun clause hclause => ?_) fun filters _ => .ok _
        exact AttributeFilter.failsOnlyWith_read
          (hclauses.splitAtDepthZero (by decide) clause hclause)

/-- None of the operations is refused with more than its own text. -/
theorem failsOnlyWith_readOperations {raws : List Text} (hraws : ∀ raw ∈ raws, IsLine raw)
    (seen : List Change) (sofar : FilterChanges) :
    FailsOnlyWith CitesLines (readOperations seen sofar raws) := by
  induction raws generalizing seen sofar with
  | nil => exact .ok sofar
  | cons raw raws ih =>
      have hrest : ∀ raw ∈ raws, IsLine raw := fun r hr => hraws r (List.mem_cons_of_mem raw hr)
      refine .bind (failsOnlyWith_readOperation (hraws raw (by simp)) seen) fun found _ => ?_
      exact ih hrest (found.1 :: seen) (sofar.set found.1 found.2)

theorem failsOnlyWith_read (hraw : IsLine raw) : FailsOnlyWith CitesLines (read raw) := by
  have hcuts : Text.CutsInto (fun _ => true) raw (splitOperations raw) :=
    splitOperations_cutsInto rfl rfl 0 raw
  unfold read
  refine .bind (failsOnlyWith_readOperations (hraw.part hcuts) [] empty) ?_
  intro changes _
  split
  · exact .error (by simpa [CitesLines, ValueFault.cited] using hraw)
  · exact .ok _

end FilterChanges

namespace Value

theorem failsOnlyWith_readBind (hraw : IsLine raw) (k : BindKeyword) :
    FailsOnlyWith CitesLines (readBind k raw) := by
  unfold readBind
  split
  · exact .error (by simp [CitesLines, ValueFault.cited])
  · cases k
    case userDn | roleDn | groupDn => exact (NameList.failsOnlyWith_read hraw true).map
    case userAttr | groupAttr => exact (AttributeBinding.failsOnlyWith_read hraw).map
    case ip => exact (AddressList.failsOnlyWith_read hraw).map
    case dns => exact (DomainList.failsOnlyWith_read hraw).map
    case dayOfWeek => exact (DaySet.failsOnlyWith_read hraw).map
    case timeOfDay => exact (ClockTime.failsOnlyWith_read hraw).map
    case authMethod => exact (AuthMethod.failsOnlyWith_read hraw).map
    case ssf => exact (Strength.failsOnlyWith_read hraw).map

theorem failsOnlyWith_readTarget {raws : List Text} (hraws : ∀ raw ∈ raws, IsLine raw)
    (k : TargetKeyword) : FailsOnlyWith CitesLines (readTarget k raws) := by
  have hjoined : IsLine (Text.join " || ".toList raws) := .join (by decide) hraws
  have hsingle {α : Type} {f : Text → Except ValueFault α}
      (hf : ∀ raw, IsLine raw → FailsOnlyWith CitesLines (f raw)) :
      FailsOnlyWith CitesLines (single raws >>= f) := by
    match raws, hraws with
    | [raw], hraws => exact hf raw (hraws raw (by simp))
    | [], _ => exact .error (by simp [CitesLines, ValueFault.cited])
    | _ :: _ :: _, _ => exact .error (by simp [CitesLines, ValueFault.cited])
  unfold readTarget
  split
  · exact .error (by simp [CitesLines, ValueFault.cited])
  · dsimp only
    cases k
    case target | targetTo | targetFrom => exact (NameList.failsOnlyWith_read hjoined false).map
    case targetAttr => exact (AttributeList.failsOnlyWith_read hjoined).map
    case targetControl | extOp => exact (ObjectIdList.failsOnlyWith_read hjoined).map
    case targetScope =>
      exact hsingle fun raw hraw => .bind (SearchScope.failsOnlyWith_read hraw) fun _ _ => .ok _
    case targetFilter =>
      exact hsingle fun raw hraw =>
        .bind (failsOnlyWith_within (SearchFilter.failsOnlyWith_read hraw) _) fun _ _ => .ok _
    case targetAttrFilters =>
      exact hsingle fun raw hraw => .bind (FilterChanges.failsOnlyWith_read hraw) fun _ _ => .ok _

end Value

end DirectoryAccess
