import DirectoryAccess.Proofs.Distinct
import DirectoryAccess.Proofs.Text.Measure
import DirectoryAccess.Proofs.Value.Reading

/-!
# Values add nothing to their text

What is read from a text writes no more of any additive measure than the text
has: no comparison and no open quote comes out of a value that did not go in.
-/

namespace DirectoryAccess

variable {f : Text → Nat}

open Text (IsMeasure isPlain)

theorem sum_le_of_sublist {ps qs : List Text} (h : ps.Sublist qs) :
    (ps.map f).sum ≤ (qs.map f).sum :=
  (h.map f).sum_le_sum fun _ _ => Nat.zero_le _

theorem sum_le_of_forall₂ {α : Type} {text : α → Text} {xs : List Text} {ys : List α}
    (h : List.Forall₂ (fun x y => f (text y) ≤ f x) xs ys) :
    ((ys.map text).map f).sum ≤ (xs.map f).sum := by
  induction h with
  | nil => exact Nat.le_refl _
  | cons hxy _ ih =>
      simp only [List.map_cons, List.sum_cons]
      exact Nat.add_le_add hxy ih

theorem SpecialName.isPlain_of_mem_name (s : SpecialName) : ∀ c ∈ s.name, isPlain c = true :=
  Text.forall_mem_of_all (by cases s <;> decide)

theorem SearchScope.isPlain_of_mem_urlName (s : SearchScope) :
    ∀ c ∈ s.urlName, isPlain c = true :=
  Text.forall_mem_of_all (by cases s <;> decide)

theorem NameEntry.isPlain_of_mem_scheme : ∀ c ∈ scheme, isPlain c = true :=
  Text.forall_mem_of_all (by decide)

theorem EntryUrl.withoutEmptyEnd_sublist (fields : List Text) :
    (withoutEmptyEnd fields).Sublist fields := by
  cases fields with
  | nil => exact List.Sublist.refl _
  | cons first others =>
      have hdrop := (List.dropWhile_sublist List.isEmpty (l := others.reverse)).reverse
      rw [List.reverse_reverse] at hdrop
      exact hdrop.cons_cons first

def measureLeft (f : Text → Nat) (t : Option Text) : Nat :=
  (t.map f).getD 0

section Measured

variable (hf : IsMeasure f)

include hf

theorem SearchFilter.measure_read {t : Text} {s : SearchFilter} (h : read t = .ok s) :
    f s.text = f t := by
  obtain ⟨-, -, rfl⟩ := read_eq_ok_iff.1 h
  rw [← hf.trim t]
  simp only [parenthesized]
  split
  · rfl
  · rw [Text.enclose, if_pos rfl, hf.append_singleton (by decide), hf.cons (by decide)]

namespace EntryUrl

theorem measure_field (t : Text) : f t = f (field t).1 + measureLeft f (field t).2 := by
  unfold field
  split
  · simp [measureLeft]
  · rename_i hcut
    exact hf.cut? (by decide) hcut

theorem measure_nextField (t : Option Text) :
    measureLeft f t = measureLeft f (nextField t).1 + measureLeft f (nextField t).2 := by
  cases t with
  | none => rfl
  | some t => exact measure_field hf t

theorem measure_attributes (t : Option Text) :
    f (Text.join [','] ((t.map Text.commaEntries).getD [])) = measureLeft f t := by
  rw [hf.join (Text.forall_mem_of_all (by decide)) (by decide)]
  cases t with
  | none => rfl
  | some t => exact hf.commaEntries t

theorem measure_scope (scope : Option SearchScope) :
    f ((scope.map SearchScope.urlName).getD []) = 0 := by
  cases scope with
  | none => exact hf.nil
  | some scope => exact hf.plain scope.isPlain_of_mem_urlName

theorem measure_filter {t : Option Text} {filter : Option SearchFilter}
    (h : optional (fun s => (SearchFilter.read s).mapError (.within .filter)) t = .ok filter) :
    f ((filter.map SearchFilter.text).getD []) ≤ measureLeft f t := by
  rcases optional_eq_ok_iff.1 h with ⟨-, rfl⟩ | ⟨s, b, rfl, -, hb, rfl⟩
  · exact hf.nil.trans_le (Nat.zero_le _)
  · have hmeasure := SearchFilter.measure_read hf (Outcome.mapError_eq_ok.1 hb)
    rw [hf.trim] at hmeasure
    exact hmeasure.le

theorem measure_read {t : Text} {u : EntryUrl} (h : read t = .ok u) : f u.text ≤ f t := by
  obtain ⟨hbase, hattributes, -, hfilter⟩ := read_eq_ok_iff.1 h
  obtain ⟨-, -, hbase⟩ := DistinguishedName.read_eq_ok_iff.1 hbase
  have hfields : (u.fields.map f).sum ≤ f t := by
    have hfilter := measure_filter hf hfilter
    have hattributes : f (Text.join [','] u.attributes) = _ :=
      hattributes ▸ measure_attributes hf _
    have h1 := measure_field hf t
    have h2 := measure_nextField hf (field t).2
    have h3 := measure_nextField hf (nextField (field t).2).2
    simp only [fields, List.map_cons, List.map_nil, List.sum_cons, List.sum_nil, ← hbase, hf.trim,
      hattributes, measure_scope hf u.scope]
    omega
  rw [text, hf.join (Text.forall_mem_of_all (by decide)) (by decide)]
  exact (sum_le_of_sublist (withoutEmptyEnd_sublist u.fields)).trans hfields

end EntryUrl

theorem NameEntry.measure_withoutScheme (t : Text) : f (withoutScheme t) = f t := by
  unfold withoutScheme
  cases hstrip : Text.stripFold? scheme t with
  | none => rfl
  | some rest => exact (hf.stripFold? (Text.forall_mem_of_all (by decide)) hstrip).symm

theorem NameEntry.measure_read {urls : Bool} {t : Text} {e : NameEntry}
    (h : read urls t = .ok e) : f e.text ≤ f t := by
  have hscheme (name : Text) : f (scheme ++ name) = f name :=
    hf.plain_append isPlain_of_mem_scheme name
  rw [← measure_withoutScheme hf t]
  rcases read_eq_ok_iff.1 h with ⟨s, -, rfl⟩ | ⟨-, -, -, u, hu, rfl⟩ | ⟨-, -, d, hd, rfl⟩
  · rw [text, hscheme, hf.plain s.isPlain_of_mem_name]
    exact Nat.zero_le _
  · rw [text, hscheme]
    exact EntryUrl.measure_read hf hu
  · obtain ⟨-, -, rfl⟩ := DistinguishedName.read_eq_ok_iff.1 hd
    rw [text, hscheme, hf.trim]

theorem NameList.measure_read {urls : Bool} {raw : Text} {l : NameList}
    (h : read urls raw = .ok l) : f l.text ≤ f raw := by
  obtain ⟨items, hitems, -, rfl⟩ := read_eq_ok_iff.1 h
  rw [text, hf.join (Text.forall_mem_of_all (by decide)) (by decide), ← hf.entries raw]
  have hsublist : (ofList items).items.Sublist items := Distinct.ofList_sublist items
  refine (sum_le_of_sublist (hsublist.map NameEntry.text)).trans (sum_le_of_forall₂ ?_)
  exact hitems.imp fun _ _ hread => NameEntry.measure_read hf hread

theorem InheritanceLevels.measure_text (l : InheritanceLevels) :
    f l.text = 0 := by
  rw [text, hf.join (Text.forall_mem_of_all (by decide)) (by decide), List.map_map]
  refine List.sum_eq_zero fun n hn => ?_
  obtain ⟨level, -, rfl⟩ := List.mem_map.1 hn
  exact hf.plain fun c hc => Text.isPlain_of_mem_ofNat hc

namespace AttributeBinding

theorem measure_readLevels {raw binding : Text} {levels : Option InheritanceLevels}
    (h : readLevels raw = .ok (levels, binding)) : f binding ≤ f raw := by
  rcases readLevels_eq_ok_iff.1 h with ⟨-, -, rfl⟩ | ⟨rest, digits, l, hstrip, hcut, -, -⟩
  · exact Nat.le_refl _
  · rw [hf.stripFold? (Text.forall_mem_of_all (by decide)) hstrip, hf.cut? (by decide) hcut,
      hf.cons (by decide)]
    exact Nat.le_add_left _ _

theorem measure_ofText (t : Text) : f (BindingKind.ofText t).text ≤ f t := by
  unfold BindingKind.ofText
  split
  · rename_i b hb
    have hname : ∀ c ∈ b.name, isPlain c = true :=
      Text.forall_mem_of_all (by cases b <;> decide)
    exact (hf.plain hname).trans_le (Nat.zero_le _)
  · exact Nat.le_refl _

theorem measure_read {t : Text} {b : AttributeBinding} (h : read t = .ok b) : f b.text ≤ f t := by
  obtain ⟨binding, name, value, hlevels, hcut, hattr, -, -, -, hkind⟩ := read_eq_ok_iff.1 h
  have hbinding : f (b.attr ++ '#' :: b.kind.text) ≤ f t := by
    have hlevels := measure_readLevels hf hlevels
    have hvalue := measure_ofText hf (Text.trim value)
    rw [hf.trim] at hlevels
    rw [hkind, hf.trim] at hvalue
    rw [hf.parted (by decide), ← hattr, hf.trim]
    rw [hf.cut? (by decide) hcut] at hlevels
    omega
  unfold text
  split
  · exact hbinding
  · rename_i levels hsome
    have hclose : ∀ c ∈ "].".toList, isPlain c = true :=
      Text.forall_mem_of_all (by decide)
    simp only [List.append_assoc]
    rw [hf.plain_append (Text.forall_mem_of_all (by decide)),
      hf.append_plain_append hclose (by decide), levels.measure_text hf, Nat.zero_add]
    exact hbinding

end AttributeBinding

theorem AddressList.measure_read {raw : Text} {l : AddressList} (h : read raw = .ok l) :
    f l.text ≤ f raw := by
  obtain ⟨-, -, rfl⟩ := read_eq_ok_iff.1 h
  rw [text, foldl_push, hf.join (Text.forall_mem_of_all (by decide)) (by decide),
    ← hf.commaEntries raw]
  exact sum_le_of_sublist (Distinct.ofList_sublist _)

theorem DomainList.measure_read {raw : Text} {l : DomainList} (h : read raw = .ok l) :
    f l.text ≤ f raw := by
  obtain ⟨-, -, rfl⟩ := read_eq_ok_iff.1 h
  rw [text, foldl_push, hf.join (Text.forall_mem_of_all (by decide)) (by decide),
    ← hf.commaEntries raw]
  exact sum_le_of_sublist (Distinct.ofList_sublist _)

theorem DaySet.measure_text (s : DaySet) : f s.text = 0 := by
  rw [text, hf.join (Text.forall_mem_of_all (by decide)) (by decide), List.map_map]
  refine List.sum_eq_zero fun n hn => ?_
  obtain ⟨d, -, rfl⟩ := List.mem_map.1 hn
  have hday : ∀ c ∈ d.abbreviation, isPlain c = true :=
      Text.forall_mem_of_all (by cases d <;> decide)
  exact hf.plain hday

theorem ClockTime.measure_text (t : ClockTime) : f t.text = 0 := by
  refine hf.plain fun c hc => ?_
  rcases List.mem_append.1 hc with hzero | hdigit
  · rw [List.eq_of_mem_replicate hzero]
    decide
  · exact Text.isPlain_of_mem_ofNat hdigit

theorem Strength.measure_text (s : Strength) : f s.text = 0 :=
  hf.plain fun _ hc => Text.isPlain_of_mem_ofNat hc

theorem AuthMethod.measure_name (m : AuthMethod) : f m.name = 0 := by
  have hname : ∀ c ∈ m.name, isPlain c = true :=
      Text.forall_mem_of_all (by cases m <;> decide)
  exact hf.plain hname

/-- Reading the value of a bind keyword and writing it again adds nothing. -/
theorem Value.measure_parseBind {k : BindKeyword} {raw : Text} {v : Value}
    (h : parseBind k raw = .ok v) : f v.text ≤ f raw := by
  have hzero {t : Text} (ht : f t = 0) : f t ≤ f raw := ht.trans_le (Nat.zero_le _)
  obtain ⟨-, h⟩ := parseBind_eq_ok_iff.1 h
  cases k <;> obtain ⟨a, ha, rfl⟩ := h
  case userDn | roleDn | groupDn => exact NameList.measure_read hf ha
  case userAttr | groupAttr => exact AttributeBinding.measure_read hf ha
  case ip => exact AddressList.measure_read hf ha
  case dns => exact DomainList.measure_read hf ha
  case dayOfWeek => exact hzero (a.measure_text hf)
  case timeOfDay => exact hzero (a.measure_text hf)
  case authMethod => exact hzero (a.measure_name hf)
  case ssf => exact hzero (a.measure_text hf)

end Measured

/-- No open quote comes out of a value that did not go in. -/
theorem Value.quotesEscaped_of_parseBind {k : BindKeyword} {raw : Text} {v : Value}
    (h : parseBind k raw = .ok v) (hraw : Text.quotesEscaped false raw = true) :
    Text.quotesEscaped false v.text = true := by
  rw [← Text.openQuotes_eq_zero_iff] at hraw ⊢
  have hle := measure_parseBind Text.openQuotes_isMeasure h
  omega

end DirectoryAccess
