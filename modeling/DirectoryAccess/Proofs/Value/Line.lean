import DirectoryAccess.Proofs.Text.Line
import DirectoryAccess.Proofs.Value.Measure
import DirectoryAccess.Proofs.Value.Target

/-!
# Values on one line

The value of a bind keyword that is read from one line is written on one line.
-/

namespace DirectoryAccess

open Text (IsLine)

theorem Operator.isLine_symbol (op : Operator) : IsLine op.symbol := by
  cases op <;> decide

theorem BindKeyword.isLine_name (k : BindKeyword) : IsLine k.name := by
  cases k <;> decide

theorem TargetKeyword.isLine_name (k : TargetKeyword) : IsLine k.name := by
  cases k <;> decide

theorem SearchFilter.isLine_of_read {t : Text} {f : SearchFilter} (h : read t = .ok f)
    (ht : IsLine t) : IsLine f.text :=
  hereditary_read Text.isLine_isHereditary h ht

namespace EntryUrl

def IsLineLeft (t : Option Text) : Prop :=
  ∀ s ∈ t, IsLine s

theorem isLine_field {t : Text} (ht : IsLine t) :
    IsLine (field t).1 ∧ IsLineLeft (field t).2 := by
  unfold field
  split
  · exact ⟨ht, by simp [IsLineLeft]⟩
  · rename_i front rest hcut
    simpa [IsLineLeft] using ht.cut? hcut

theorem isLine_nextField {t : Option Text} (ht : IsLineLeft t) :
    IsLineLeft (nextField t).1 ∧ IsLineLeft (nextField t).2 := by
  cases t with
  | none => exact ⟨by simp [nextField, IsLineLeft], by simp [nextField, IsLineLeft]⟩
  | some t =>
      have hfield := isLine_field (ht t rfl)
      exact ⟨by simpa [nextField, IsLineLeft] using hfield.1, hfield.2⟩

theorem isLine_attributes {t : Option Text} (ht : IsLineLeft t) :
    IsLine (Text.join [','] ((t.map Text.commaEntries).getD [])) := by
  refine IsLine.join (by decide) fun p hp => ?_
  cases t with
  | none => cases hp
  | some t => exact (ht t rfl).commaEntry hp

theorem isLine_scope (scope : Option SearchScope) :
    IsLine ((scope.map SearchScope.urlName).getD []) := by
  cases scope with
  | none => exact Text.isLine_nil
  | some scope => cases scope <;> decide

theorem isLine_filter {t : Option Text} {filter : Option SearchFilter} (ht : IsLineLeft t)
    (h : optional (fun s => (SearchFilter.read s).mapError (.within .filter)) t = .ok filter) :
    IsLine ((filter.map SearchFilter.text).getD []) := by
  rcases optional_eq_ok_iff.1 h with ⟨-, rfl⟩ | ⟨s, b, rfl, -, hb, rfl⟩
  · exact Text.isLine_nil
  · exact SearchFilter.isLine_of_read (Outcome.mapError_eq_ok.1 hb) (ht s rfl).trim

theorem isLine_of_read {t : Text} {u : EntryUrl} (h : read t = .ok u) (ht : IsLine t) :
    IsLine u.text := by
  obtain ⟨hbase, hattributes, -, hfilter⟩ := read_eq_ok_iff.1 h
  obtain ⟨-, -, hbase⟩ := DistinguishedName.read_eq_ok_iff.1 hbase
  obtain ⟨hfirst, hrest⟩ := isLine_field ht
  obtain ⟨hsecond, hrest⟩ := isLine_nextField hrest
  obtain ⟨-, hlast⟩ := isLine_nextField hrest
  have hfields : ∀ p ∈ u.fields, IsLine p := by
    intro p hp
    simp only [fields, List.mem_cons, List.not_mem_nil, or_false] at hp
    rcases hp with rfl | rfl | rfl | rfl
    · rw [← hbase]
      exact hfirst.trim
    · rw [hattributes]
      exact isLine_attributes hsecond
    · exact isLine_scope u.scope
    · exact isLine_filter hlast hfilter
  rw [text]
  exact IsLine.join (by decide) fun p hp => hfields p ((withoutEmptyEnd_sublist u.fields).subset hp)

end EntryUrl

theorem NameEntry.isLine_withoutScheme {t : Text} (ht : IsLine t) : IsLine (withoutScheme t) := by
  unfold withoutScheme
  cases hstrip : Text.stripFold? scheme t with
  | none => exact ht
  | some rest => exact ht.stripFold? hstrip

theorem NameEntry.isLine_of_read {urls : Bool} {t : Text} {e : NameEntry}
    (h : read urls t = .ok e) (ht : IsLine t) : IsLine e.text := by
  have hscheme (name : Text) (hname : IsLine name) : IsLine (scheme ++ name) :=
    Text.isLine_append_iff.2 ⟨by decide, hname⟩
  have hrest := isLine_withoutScheme ht
  rcases read_eq_ok_iff.1 h with ⟨s, -, rfl⟩ | ⟨-, -, -, u, hu, rfl⟩ | ⟨-, -, d, hd, rfl⟩
  · exact hscheme s.name (by cases s <;> decide)
  · exact hscheme u.text (EntryUrl.isLine_of_read hu hrest)
  · obtain ⟨-, -, rfl⟩ := DistinguishedName.read_eq_ok_iff.1 hd
    exact hscheme _ hrest.trim

theorem NameList.isLine_of_read {urls : Bool} {raw : Text} {l : NameList}
    (h : read urls raw = .ok l) (hraw : IsLine raw) : IsLine l.text := by
  refine IsLine.join (by decide) fun p hp => ?_
  obtain ⟨e, he, rfl⟩ := List.mem_map.1 hp
  obtain ⟨t, ht, hread⟩ := exists_of_mem_items h he
  exact NameEntry.isLine_of_read hread (hraw.entry ht)

theorem InheritanceLevels.isLine_text (l : InheritanceLevels) : IsLine l.text := by
  refine IsLine.join (by decide) fun p hp => ?_
  obtain ⟨n, -, rfl⟩ := List.mem_map.1 hp
  exact Text.isLine_ofNat n

namespace AttributeBinding

theorem isLine_readLevels {raw binding : Text} {levels : Option InheritanceLevels}
    (h : readLevels raw = .ok (levels, binding)) (hraw : IsLine raw) : IsLine binding := by
  rcases readLevels_eq_ok_iff.1 h with ⟨-, -, rfl⟩ | ⟨rest, digits, l, hstrip, hcut, -, -⟩
  · exact hraw
  · have hafter := ((hraw.stripFold? hstrip).cut? hcut).2
    exact (Text.isLine_cons_iff.1 hafter).2

theorem isLine_ofText {t : Text} (ht : IsLine t) : IsLine (BindingKind.ofText t).text := by
  unfold BindingKind.ofText
  split
  · rename_i b hb
    cases b <;> decide
  · exact ht

theorem isLine_of_read {t : Text} {b : AttributeBinding} (h : read t = .ok b) (ht : IsLine t) :
    IsLine b.text := by
  obtain ⟨binding, name, value, hlevels, hcut, hattr, -, -, -, hkind⟩ := read_eq_ok_iff.1 h
  obtain ⟨hname, hvalue⟩ := (isLine_readLevels hlevels ht.trim).cut? hcut
  have hbinding : IsLine (b.attr ++ '#' :: b.kind.text) := by
    rw [← hattr, ← hkind]
    simpa using ⟨hname.trim, isLine_ofText hvalue.trim⟩
  unfold text
  split
  · exact hbinding
  · rename_i levels hsome
    have hopening : IsLine opening := by decide
    have hclose : IsLine "].".toList := by decide
    simp only [List.append_assoc]
    rw [Text.isLine_append_iff, Text.isLine_append_iff, Text.isLine_append_iff]
    exact ⟨hopening, levels.isLine_text, hclose, hbinding⟩

end AttributeBinding

theorem AddressList.isLine_of_read {raw : Text} {l : AddressList} (h : read raw = .ok l)
    (hraw : IsLine raw) : IsLine l.text := by
  obtain ⟨-, -, rfl⟩ := read_eq_ok_iff.1 h
  rw [text, foldl_push]
  exact IsLine.join (by decide) fun p hp => hraw.commaEntry ((Distinct.ofList_sublist _).subset hp)

theorem DomainList.isLine_of_read {raw : Text} {l : DomainList} (h : read raw = .ok l)
    (hraw : IsLine raw) : IsLine l.text := by
  obtain ⟨-, -, rfl⟩ := read_eq_ok_iff.1 h
  rw [text, foldl_push]
  exact IsLine.join (by decide) fun p hp => hraw.commaEntry ((Distinct.ofList_sublist _).subset hp)

theorem DaySet.isLine_text (s : DaySet) : IsLine s.text := by
  refine IsLine.join (by decide) fun p hp => ?_
  obtain ⟨d, -, rfl⟩ := List.mem_map.1 hp
  cases d <;> decide

theorem ClockTime.isLine_text (t : ClockTime) : IsLine t.text := by
  refine Text.isLine_append_iff.2 ⟨?_, Text.isLine_ofNat t.value⟩
  refine Text.isLine_of_forall fun c hc => ?_
  rw [List.eq_of_mem_replicate hc]
  decide

theorem AuthMethod.isLine_name (m : AuthMethod) : IsLine m.name := by
  cases m <;> decide

/-- The value of a bind keyword is written on one line if it was read from one. -/
theorem Value.isLine_of_parseBind {k : BindKeyword} {raw : Text} {v : Value}
    (h : parseBind k raw = .ok v) (hraw : IsLine raw) : IsLine v.text := by
  obtain ⟨-, h⟩ := parseBind_eq_ok_iff.1 h
  cases k <;> obtain ⟨a, ha, rfl⟩ := h
  case userDn | roleDn | groupDn => exact NameList.isLine_of_read ha hraw
  case userAttr | groupAttr => exact AttributeBinding.isLine_of_read ha hraw
  case ip => exact AddressList.isLine_of_read ha hraw
  case dns => exact DomainList.isLine_of_read ha hraw
  case dayOfWeek => exact a.isLine_text
  case timeOfDay => exact a.isLine_text
  case authMethod => exact a.isLine_name
  case ssf => exact Text.isLine_ofNat _

end DirectoryAccess
