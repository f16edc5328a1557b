import DirectoryAccess.Proofs.Distinct
import DirectoryAccess.Proofs.Text.Entries
import DirectoryAccess.Proofs.Value.Measure

/-!
# Names read back

A name, a filter or a scope that was read is read from its own text, and so is a
list of names, with one exception: a URL that says nothing but its base is
written as the base alone and read as a name.
-/

namespace DirectoryAccess

/-! ## Scopes and filters -/

theorem SearchScope.read_name (s : SearchScope) : read s.name = .ok s := by
  cases s <;> rfl

namespace SearchFilter

theorem exists_parenthesized (t : Text) : ∃ rest, parenthesized t = '(' :: rest := by
  unfold parenthesized
  split
  · rename_i rest
    exact ⟨rest, rfl⟩
  · exact ⟨t ++ [')'], rfl⟩

theorem parenthesized_parenthesized (t : Text) :
    parenthesized (parenthesized t) = parenthesized t := by
  obtain ⟨rest, hrest⟩ := exists_parenthesized t
  rw [hrest, parenthesized]

theorem isTrimmed_parenthesized {t : Text} (h : t.IsTrimmed) : (parenthesized t).IsTrimmed := by
  unfold parenthesized
  split
  · exact h
  · exact Text.isTrimmed_cons_append (by decide) (by decide) t

theorem isTrimmed_text {t : Text} {f : SearchFilter} (h : read t = .ok f) : f.text.IsTrimmed := by
  obtain ⟨-, -, rfl⟩ := read_eq_ok_iff.1 h
  exact isTrimmed_parenthesized (Text.isTrimmed_trim t)

theorem text_ne_nil {t : Text} {f : SearchFilter} (h : read t = .ok f) : f.text ≠ [] := by
  obtain ⟨-, -, rfl⟩ := read_eq_ok_iff.1 h
  obtain ⟨rest, hrest⟩ := exists_parenthesized (Text.trim t)
  simp [hrest]

/-- A filter is read from its own text. -/
theorem read_text {t : Text} {f : SearchFilter} (h : read t = .ok f) : read f.text = .ok f := by
  have htrim := Text.trim_eq_self (isTrimmed_text h)
  have hne := text_ne_nil h
  obtain ⟨-, hcheck, rfl⟩ := read_eq_ok_iff.1 h
  rw [read_eq_ok_iff, htrim, parenthesized_parenthesized]
  exact ⟨hne, hcheck, rfl⟩

end SearchFilter

/-! ## Distinguished names -/

namespace DistinguishedName

theorem mem_of_mem_splitEscaped {d c : Char} {t p : Text} (hp : p ∈ Text.splitEscaped d t)
    (hc : c ∈ p) : c ∈ t := by
  have hcuts : Text.CutsInto (· == d) t (Text.splitEscaped d t) :=
    Text.splitEscaped_cutsInto (by simp) t
  exact (hcuts.isInfix p hp).subset hc

/-- A name that was read holds an equals sign. -/
theorem equals_mem_text {wildcards : Bool} {t : Text} {d : DistinguishedName}
    (h : read wildcards t = .ok d) : '=' ∈ d.text := by
  obtain ⟨-, hfaults, rfl⟩ := read_eq_ok_iff.1 h
  dsimp only
  generalize Text.trim t = whole at hfaults ⊢
  obtain ⟨part, parts, hparts⟩ := List.exists_cons_of_ne_nil (Text.splitEscaped_ne_nil ',' whole)
  obtain ⟨component, others, hcomponent⟩ :=
    List.exists_cons_of_ne_nil (Text.splitEscaped_ne_nil '+' part)
  have hwhole : part ∈ Text.splitEscaped ',' whole := by
    rw [hparts]
    exact List.mem_cons_self
  have hpart : component ∈ Text.splitEscaped '+' part := by
    rw [hcomponent]
    exact List.mem_cons_self
  have hmem : component ∈ components whole := List.mem_flatMap.2 ⟨part, hwhole, hpart⟩
  have hfault := List.findSome?_eq_none_iff.1 hfaults component hmem
  have hequals : '=' ∈ component := by
    by_contra hnot
    rw [componentFault?, Text.cut?_eq_none_iff.2 hnot] at hfault
    cases hfault
  exact mem_of_mem_splitEscaped hwhole (mem_of_mem_splitEscaped hpart hequals)

theorem isTrimmed_text {wildcards : Bool} {t : Text} {d : DistinguishedName}
    (h : read wildcards t = .ok d) : d.text.IsTrimmed := by
  obtain ⟨-, -, rfl⟩ := read_eq_ok_iff.1 h
  exact Text.isTrimmed_trim t

/-- A name is read from its own text. -/
theorem read_text {wildcards : Bool} {t : Text} {d : DistinguishedName}
    (h : read wildcards t = .ok d) : read wildcards d.text = .ok d := by
  obtain ⟨hne, hfaults, rfl⟩ := read_eq_ok_iff.1 h
  rw [read_eq_ok_iff, Text.trim_trim]
  exact ⟨hne, hfaults, rfl⟩

end DistinguishedName

/-! ## URLs -/

namespace EntryUrl

/-- Holds for a URL that says nothing but its base. -/
def isBare (u : EntryUrl) : Bool :=
  u.attributes.isEmpty && u.scope.isNone && u.filter.isNone

/-- What reading leaves in a URL. -/
structure IsRead (u : EntryUrl) : Prop where
  base : DistinguishedName.read true u.base.text = .ok u.base
  noMark : '?' ∉ u.base.text
  attributes : ∀ a ∈ u.attributes, Text.IsCommaEntry a ∧ '?' ∉ a
  filter : ∀ f ∈ u.filter, SearchFilter.read f.text = .ok f

theorem not_mem_field (t : Text) : '?' ∉ (field t).1 := by
  unfold field
  split
  · rename_i hcut
    exact Text.cut?_eq_none_iff.1 hcut
  · rename_i front rest hcut
    exact (Text.cut?_eq_some hcut).2

theorem field_append {s : Text} (hs : '?' ∉ s) (t : Text) : field (s ++ '?' :: t) = (s, some t) := by
  rw [field, Text.cut?_append_cons hs]

theorem field_of_not_mem {s : Text} (hs : '?' ∉ s) : field s = (s, none) := by
  rw [field, Text.cut?_eq_none_iff.2 hs]

theorem field_isInfix (t : Text) : (field t).1 <:+: t ∧ ∀ rest ∈ (field t).2, rest <:+: t := by
  unfold field
  split
  · exact ⟨List.infix_refl t, by simp⟩
  · rename_i front rest hcut
    rw [(Text.cut?_eq_some hcut).1]
    refine ⟨(List.prefix_append _ _).isInfix, fun r hr => ?_⟩
    obtain rfl : rest = r := by simpa using hr
    exact ((List.suffix_cons '?' rest).trans (List.suffix_append front _)).isInfix

def attributeText (u : EntryUrl) : Text :=
  Text.join [','] u.attributes

theorem isRead_of_read {t : Text} {u : EntryUrl} (h : read t = .ok u) : u.IsRead := by
  obtain ⟨hbase, hattributes, -, hfilter⟩ := read_eq_ok_iff.1 h
  refine ⟨DistinguishedName.read_text hbase, ?_, ?_, ?_⟩
  · obtain ⟨-, -, hname⟩ := DistinguishedName.read_eq_ok_iff.1 hbase
    rw [← hname]
    exact fun hmem => not_mem_field t ((Text.trim_isInfix _).subset hmem)
  · intro a ha
    rw [hattributes] at ha
    cases hfield : (field t).2 with
    | none => simp [hfield, nextField] at ha
    | some rest =>
        have hmem : a ∈ Text.commaEntries (field rest).1 := by
          simpa [hfield, nextField] using ha
        obtain ⟨part, hpart, rfl, -⟩ := Text.mem_commaEntries hmem
        refine ⟨Text.isCommaEntry_of_mem hmem, fun hmark => not_mem_field rest ?_⟩
        have hcuts : Text.CutsInto (· == ',') (field rest).1 (Text.splitOn ',' (field rest).1) :=
          Text.splitOn_cutsInto (by decide) _
        exact (hcuts.isInfix part hpart).subset ((Text.trim_isInfix part).subset hmark)
  · intro f hf
    rcases optional_eq_ok_iff.1 hfilter with ⟨-, hnone⟩ | ⟨rest, g, -, -, hread, hsome⟩
    · rw [← hnone] at hf
      cases hf
    · rw [← hsome] at hf
      obtain rfl : g = f := by simpa using hf
      exact SearchFilter.read_text (Outcome.mapError_eq_ok.1 hread)

theorem not_mem_attributeText {u : EntryUrl} (h : u.IsRead) : '?' ∉ u.attributeText := by
  intro hmem
  rcases Text.mem_join hmem with hmem | ⟨a, ha, hmem⟩
  · exact absurd hmem (by decide)
  · exact (h.attributes a ha).2 hmem

theorem commaEntries_attributeText {u : EntryUrl} (h : u.IsRead) :
    Text.commaEntries u.attributeText = u.attributes :=
  Text.commaEntries_join fun a ha => (h.attributes a ha).1

theorem attributeText_ne_nil {u : EntryUrl} (h : u.IsRead) (hne : u.attributes ≠ []) :
    u.attributeText ≠ [] := by
  intro hnil
  have hentries := commaEntries_attributeText h
  rw [hnil] at hentries
  exact hne hentries.symm

theorem urlName_ne_nil (s : SearchScope) : s.urlName ≠ [] := by
  cases s <;> decide

theorem not_mem_urlName (s : SearchScope) : '?' ∉ s.urlName := by
  cases s <;> decide

/-! The four ways in which a URL is written: up to its last field that says something. -/

section Written

variable {u : EntryUrl}

theorem text_of_filter {f : SearchFilter} (hf : u.filter = some f) (hne : f.text ≠ []) :
    u.text = u.base.text ++ '?' :: (u.attributeText ++ '?' ::
      ((u.scope.map SearchScope.urlName).getD [] ++ '?' :: f.text)) := by
  have hkept : f.text.isEmpty = false := by simpa using hne
  simp [text, fields, withoutEmptyEnd, hf, hkept, Text.join_cons, attributeText]

theorem text_of_scope {s : SearchScope} (hf : u.filter = none) (hs : u.scope = some s) :
    u.text = u.base.text ++ '?' :: (u.attributeText ++ '?' :: s.urlName) := by
  have hkept : s.urlName.isEmpty = false := by simpa using urlName_ne_nil s
  simp [text, fields, withoutEmptyEnd, hf, hs, hkept, Text.join_cons, attributeText]

theorem text_of_attributes (hf : u.filter = none) (hs : u.scope = none)
    (hne : u.attributeText ≠ []) : u.text = u.base.text ++ '?' :: u.attributeText := by
  rw [attributeText] at hne
  have hkept : (Text.join [','] u.attributes).isEmpty = false := by simpa using hne
  simp [text, fields, withoutEmptyEnd, hf, hs, hkept, Text.join_cons, attributeText]

theorem text_of_isBare (h : u.isBare = true) : u.text = u.base.text := by
  obtain ⟨base, attributes, scope, filter⟩ := u
  simp only [isBare, Bool.and_eq_true, List.isEmpty_iff, Option.isNone_iff_eq_none] at h
  obtain ⟨⟨rfl, rfl⟩, rfl⟩ := h
  simp [text, fields, withoutEmptyEnd, Text.join_cons]

theorem attributes_ne_nil (hf : u.filter = none) (hs : u.scope = none) (hbare : u.isBare = false) :
    u.attributes ≠ [] := by
  intro hnil
  rw [isBare, hf, hs, hnil] at hbare
  cases hbare

/-- A URL that says more than its base is written with a question mark behind the base. -/
theorem exists_text_eq (h : u.IsRead) (hbare : u.isBare = false) :
    ∃ rest, u.text = u.base.text ++ '?' :: rest := by
  cases hf : u.filter with
  | some f => exact ⟨_, text_of_filter hf (SearchFilter.text_ne_nil (h.filter f hf))⟩
  | none =>
      cases hs : u.scope with
      | some s => exact ⟨_, text_of_scope hf hs⟩
      | none =>
          exact ⟨_, text_of_attributes hf hs (attributeText_ne_nil h (attributes_ne_nil hf hs hbare))⟩

end Written

/-! Reading the text of a URL that says more than its base. -/

section Read

variable {u : EntryUrl}

theorem optional_urlName (scope : Option SearchScope) :
    optional (fun s => (SearchScope.read s).mapError (.within (.keyword (.target .targetScope))))
      (some ((scope.map SearchScope.urlName).getD [])) = .ok scope := by
  cases scope with
  | none => rfl
  | some scope => cases scope <;> rfl

theorem not_mem_scope (scope : Option SearchScope) :
    '?' ∉ (scope.map SearchScope.urlName).getD [] := by
  cases scope with
  | none => simp
  | some scope => exact not_mem_urlName scope

theorem optional_filter {f : SearchFilter} (h : SearchFilter.read f.text = .ok f) :
    optional (fun s => (SearchFilter.read s).mapError (.within .filter)) (some f.text) =
      .ok (some f) := by
  have htrim := Text.trim_eq_self (SearchFilter.isTrimmed_text h)
  refine optional_eq_ok_iff.2 (Or.inr ⟨f.text, f, rfl, ?_, ?_, rfl⟩)
  · rw [Text.isBlankText_eq_false_iff, htrim]
    exact SearchFilter.text_ne_nil h
  · rw [htrim, Outcome.mapError_eq_ok]
    exact h

theorem read_text (h : u.IsRead) (hbare : u.isBare = false) : read u.text = .ok u := by
  rw [read_eq_ok_iff]
  cases hf : u.filter with
  | some f =>
      have hfilter := h.filter f hf
      rw [text_of_filter hf (SearchFilter.text_ne_nil hfilter), field_append h.noMark]
      simp only [nextField, field_append (not_mem_attributeText h),
        field_append (not_mem_scope u.scope)]
      refine ⟨h.base, ?_, optional_urlName u.scope, optional_filter hfilter⟩
      exact (commaEntries_attributeText h).symm
  | none =>
      cases hs : u.scope with
      | some s =>
          have hscope := optional_urlName u.scope
          rw [hs] at hscope
          rw [text_of_scope hf hs, field_append h.noMark]
          simp only [nextField, field_append (not_mem_attributeText h),
            field_of_not_mem (not_mem_urlName s)]
          exact ⟨h.base, (commaEntries_attributeText h).symm, hscope, rfl⟩
      | none =>
          have hne := attributes_ne_nil hf hs hbare
          rw [text_of_attributes hf hs (attributeText_ne_nil h hne), field_append h.noMark]
          simp only [nextField, field_of_not_mem (not_mem_attributeText h)]
          exact ⟨h.base, (commaEntries_attributeText h).symm, rfl, rfl⟩

end Read

/-! What a URL is written with holds no bars and no white space at its ends. -/

theorem nextField_isInfix {t : Text} {left : Option Text} (hleft : ∀ s ∈ left, s <:+: t) :
    (∀ s ∈ (nextField left).1, s <:+: t) ∧ ∀ s ∈ (nextField left).2, s <:+: t := by
  cases left with
  | none => exact ⟨by simp [nextField], by simp [nextField]⟩
  | some left =>
      have hwhole := hleft left rfl
      obtain ⟨hfirst, hrest⟩ := field_isInfix left
      refine ⟨fun s hs => ?_, fun s hs => (hrest s hs).trans hwhole⟩
      obtain rfl : (field left).1 = s := by simpa [nextField] using hs
      exact hfirst.trans hwhole

section Bars

variable {t : Text} {u : EntryUrl}

open Text (Lacks bars)

theorem isTrimmed_urlName (s : SearchScope) : s.urlName.IsTrimmed := by
  cases s <;> exact Text.isTrimmed_of_trim_eq rfl

theorem lacks_urlName (s : SearchScope) : Lacks bars s.urlName := by
  apply Text.Lacks.of_not_mem (c := '|') (by decide)
  cases s <;> decide

theorem lacks_attributeText (h : read t = .ok u) (ht : Lacks bars t) :
    Lacks bars u.attributeText := by
  obtain ⟨-, hattributes, -, -⟩ := read_eq_ok_iff.1 h
  obtain ⟨hfields, -⟩ := nextField_isInfix (field_isInfix t).2
  refine Text.Lacks.join (by decide) (by decide) fun a ha => ?_
  rw [hattributes] at ha
  cases hnext : (nextField (field t).2).1 with
  | none => simp [hnext] at ha
  | some rest =>
      rw [hnext] at ha
      obtain ⟨part, hpart, rfl, -⟩ := Text.mem_commaEntries ha
      have hcuts : Text.CutsInto (· == ',') rest (Text.splitOn ',' rest) :=
        Text.splitOn_cutsInto (by decide) rest
      exact ht.of_isInfix (((Text.trim_isInfix part).trans (hcuts.isInfix part hpart)).trans
        (hfields rest hnext))

theorem lacks_filter (h : read t = .ok u) (ht : Lacks bars t) {f : SearchFilter}
    (hf : u.filter = some f) : Lacks bars f.text := by
  obtain ⟨-, -, -, hfilter⟩ := read_eq_ok_iff.1 h
  obtain ⟨-, hfields⟩ := nextField_isInfix (nextField_isInfix (field_isInfix t).2).2
  rcases optional_eq_ok_iff.1 hfilter with ⟨-, hnone⟩ | ⟨s, g, hs, -, hread, hsome⟩
  · rw [hf] at hnone
    cases hnone
  · rw [hf] at hsome
    obtain rfl := Option.some.inj hsome
    obtain ⟨-, -, rfl⟩ := SearchFilter.read_eq_ok_iff.1 (Outcome.mapError_eq_ok.1 hread)
    have hs : Lacks bars (Text.trim (Text.trim s)) :=
      ht.of_isInfix ((Text.trim_isInfix _).trans ((Text.trim_isInfix s).trans (hfields s hs)))
    simp only [SearchFilter.parenthesized]
    split
    · exact hs
    · exact (hs.concat (by decide)).cons (by decide)

/-- Every field is trimmed and holds no bars if the text has none. -/
theorem fields_of_read (h : read t = .ok u) (ht : Lacks bars t) :
    ∀ p ∈ u.fields, p.IsTrimmed ∧ Lacks bars p := by
  have hread := isRead_of_read h
  have hnil : Text.IsTrimmed [] ∧ Lacks bars [] := ⟨⟨by simp, by simp⟩, .nil (by decide)⟩
  simp only [fields, List.forall_mem_cons, List.not_mem_nil, false_imp_iff, implies_true, and_true]
  refine ⟨⟨DistinguishedName.isTrimmed_text hread.base, ?_⟩, ⟨?_, lacks_attributeText h ht⟩, ?_, ?_⟩
  · obtain ⟨hbase, -, -, -⟩ := read_eq_ok_iff.1 h
    obtain ⟨-, -, hname⟩ := DistinguishedName.read_eq_ok_iff.1 hbase
    rw [← hname]
    exact ht.of_isInfix ((Text.trim_isInfix _).trans (field_isInfix t).1)
  · exact Text.isTrimmed_join (by decide) fun a ha => (hread.attributes a ha).1.trimmed
  · cases u.scope with
    | none => exact hnil
    | some s => exact ⟨isTrimmed_urlName s, lacks_urlName s⟩
  · cases hf : u.filter with
    | none => exact hnil
    | some f =>
        exact ⟨SearchFilter.isTrimmed_text (hread.filter f hf), lacks_filter h ht hf⟩

theorem text_of_read (h : read t = .ok u) (ht : Lacks bars t) :
    u.text.IsTrimmed ∧ Lacks bars u.text := by
  have hfields : ∀ p ∈ withoutEmptyEnd u.fields, p.IsTrimmed ∧ Lacks bars p :=
    fun p hp => fields_of_read h ht p ((withoutEmptyEnd_sublist u.fields).subset hp)
  refine ⟨Text.isTrimmed_join (by decide) fun p hp => (hfields p hp).1, ?_⟩
  exact Text.Lacks.join (by decide) (by decide) fun p hp => (hfields p hp).2

end Bars

end EntryUrl

/-! ## Entries of lists -/

namespace NameEntry

/-- The entry as which the text of an entry is read. -/
def written : NameEntry → NameEntry
  | url u => if u.isBare then dn u.base else url u
  | e => e

theorem text_written (e : NameEntry) : e.written.text = e.text := by
  cases e with
  | special s => rfl
  | dn d => rfl
  | url u =>
      rw [written]
      split
      · rename_i hbare
        rw [text, text, EntryUrl.text_of_isBare hbare]
      · rfl

/-- Two entries are the same if they are written the same but for case. -/
theorem same_eq (a b : NameEntry) : same a b = Text.sameFold a.text b.text := by
  unfold same
  split
  · rename_i a b
    simp only [DistinguishedName.same, Text.sameFold, text, Text.lower, List.map_append]
    rw [Bool.eq_iff_iff, beq_iff_eq, beq_iff_eq, List.append_cancel_left_eq]
  · rfl

theorem withoutScheme_scheme_append (t : Text) : withoutScheme (scheme ++ t) = t := by
  rw [withoutScheme, Text.stripFold?_append rfl]
  rfl

theorem ofName?_of_equals_mem {t : Text} (h : '=' ∈ t) : SpecialName.ofName? t = none := by
  rw [SpecialName.ofName?, List.find?_eq_none]
  intro s _ hs
  have hmem : '='.toLower ∈ Text.lower t := List.mem_map_of_mem h
  rw [← beq_iff_eq.1 hs] at hmem
  revert hmem
  cases s <;> decide

/-- The text of an entry that was read is read as the entry, but for a URL that is a mere base. -/
theorem read_text {urls : Bool} {t : Text} {e : NameEntry} (h : read urls t = .ok e) :
    read urls e.text = .ok e.written := by
  rcases read_eq_ok_iff.1 h with ⟨s, -, rfl⟩ | ⟨-, -, hurls, u, hu, rfl⟩ | ⟨-, hmark, d, hd, rfl⟩
  · refine read_eq_ok_iff.2 (Or.inl ⟨s, ?_, rfl⟩)
    rw [text, withoutScheme_scheme_append]
    cases s <;> rfl
  · have hread := EntryUrl.isRead_of_read hu
    have hequals := DistinguishedName.equals_mem_text hread.base
    rw [read_eq_ok_iff, text, withoutScheme_scheme_append, written]
    split
    · rename_i hbare
      rw [EntryUrl.text_of_isBare hbare]
      exact Or.inr (Or.inr ⟨ofName?_of_equals_mem hequals, hread.noMark, u.base, hread.base, rfl⟩)
    · rename_i hbare
      have hagain := EntryUrl.read_text hread (by simpa using hbare)
      obtain ⟨rest, htext⟩ := EntryUrl.exists_text_eq hread (by simpa using hbare)
      refine Or.inr (Or.inl ⟨ofName?_of_equals_mem ?_, ?_, hurls, u, hagain, rfl⟩)
      · rw [htext]
        exact List.mem_append_left _ hequals
      · rw [htext]
        exact List.mem_append_right _ List.mem_cons_self
  · obtain ⟨-, -, hname⟩ := DistinguishedName.read_eq_ok_iff.1 hd
    rw [read_eq_ok_iff, text, withoutScheme_scheme_append]
    refine Or.inr (Or.inr ⟨ofName?_of_equals_mem (DistinguishedName.equals_mem_text hd), ?_, d,
      DistinguishedName.read_text hd, rfl⟩)
    rw [← hname]
    exact fun hmem => hmark ((Text.trim_isInfix _).subset hmem)

theorem isBarEntry_text {urls : Bool} {t : Text} {e : NameEntry} (h : read urls t = .ok e)
    (ht : Text.Lacks Text.bars t) : Text.IsBarEntry e.text := by
  have hscheme {name : Text} (htrim : name.IsTrimmed) (hlacks : Text.Lacks Text.bars name) :
      Text.IsBarEntry (scheme ++ name) := by
    have hfront : Text.IsTrimmed "ldap://".toList := Text.isTrimmed_of_trim_eq rfl
    have hnone : Text.Lacks Text.bars "ldap://".toList :=
      .of_not_mem (c := '|') (by decide) (by decide)
    have hsplit : scheme ++ name = "ldap://".toList ++ '/' :: name := rfl
    rw [hsplit]
    refine ⟨by simp, Text.isTrimmed_append_cons (by decide) hfront htrim, ?_⟩
    exact hnone.append_cons (by decide) hlacks
  have hwithout : withoutScheme t <:+: t := by
    unfold withoutScheme
    cases hstrip : Text.stripFold? scheme t with
    | none => exact List.infix_refl t
    | some rest =>
        obtain ⟨front, rfl, -⟩ := Text.stripFold?_eq_some hstrip
        exact (List.suffix_append front rest).isInfix
  rcases read_eq_ok_iff.1 h with ⟨s, -, rfl⟩ | ⟨-, -, -, u, hu, rfl⟩ | ⟨-, -, d, hd, rfl⟩
  · apply hscheme
    · cases s <;> exact Text.isTrimmed_of_trim_eq rfl
    · apply Text.Lacks.of_not_mem (c := '|') (by decide)
      cases s <;> decide
  · have htext := EntryUrl.text_of_read hu (ht.of_isInfix hwithout)
    exact hscheme htext.1 htext.2
  · obtain ⟨-, -, rfl⟩ := DistinguishedName.read_eq_ok_iff.1 hd
    exact hscheme (Text.isTrimmed_trim _)
      (ht.of_isInfix ((Text.trim_isInfix _).trans hwithout))

end NameEntry

/-! ## Lists of names -/

/-- A list that was read is read from its own text, but for the URLs that are mere bases. -/
theorem NameList.read_text {urls : Bool} {raw : Text} {l : NameList} (h : read urls raw = .ok l) :
    read urls l.text = .ok ⟨l.items.map NameEntry.written⟩ := by
  have hentry (e : NameEntry) (he : e ∈ l.items) := exists_of_mem_items h he
  have hnonempty := items_ne_nil_of_read h
  have hdistinct : Distinct.IsDistinct NameEntry.same l.items := by
    obtain ⟨items, -, -, rfl⟩ := read_eq_ok_iff.1 h
    exact Distinct.isDistinct_ofList items
  refine read_eq_ok_iff.2 ⟨l.items.map NameEntry.written, ?_, by simpa using hnonempty, ?_⟩
  · rw [text, Text.entries_join, List.forall₂_map_left_iff, List.forall₂_map_right_iff,
      List.forall₂_same]
    · intro e he
      obtain ⟨t, -, ht⟩ := hentry e he
      exact NameEntry.read_text ht
    · intro p hp
      obtain ⟨e, he, rfl⟩ := List.mem_map.1 hp
      obtain ⟨t, hmem, ht⟩ := hentry e he
      exact NameEntry.isBarEntry_text ht (Text.isBarEntry_of_mem hmem).noBars
  · have hmap : Distinct.IsDistinct NameEntry.same (l.items.map NameEntry.written) := by
      rw [Distinct.IsDistinct, List.pairwise_map]
      refine hdistinct.imp fun {a b} hab => ?_
      rwa [NameEntry.same_eq, NameEntry.text_written, NameEntry.text_written, ← NameEntry.same_eq]
    rw [ofList, Distinct.ofList_eq_self hmap]

end DirectoryAccess
