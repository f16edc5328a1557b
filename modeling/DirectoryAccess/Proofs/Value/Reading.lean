import DirectoryAccess.Proofs.Distinct
import DirectoryAccess.Proofs.Outcome
import DirectoryAccess.Proofs.Text.Cut
import DirectoryAccess.Value.Basic

/-!
# When values are read

One equivalence for each reader of values: what a text has to be for the reader
to accept it, and what it then gives.
-/

namespace DirectoryAccess

theorem DistinguishedName.read_eq_ok_iff {wildcards : Bool} {t : Text} {d : DistinguishedName} :
    read wildcards t = .ok d ↔
      Text.trim t ≠ [] ∧
        (components (Text.trim t)).findSome? (componentFault? wildcards (Text.trim t)) = none ∧
        ⟨Text.trim t⟩ = d := by
  simp only [read]
  split
  · simp_all
  · split
    · simp_all
    · simp_all

theorem SearchFilter.read_eq_ok_iff {t : Text} {s : SearchFilter} :
    read t = .ok s ↔
      Text.trim t ≠ [] ∧ check (parenthesized (Text.trim t)) = .ok () ∧
        ⟨parenthesized (Text.trim t)⟩ = s := by
  simp only [read]
  split
  · simp_all
  · split
    · simp_all
    · simp_all

theorem EntryUrl.optional_eq_ok_iff {α : Type} {reader : Text → Except ValueFault α}
    {t : Option Text} {a : Option α} :
    optional reader t = .ok a ↔
      ((∀ s ∈ t, Text.isBlankText s = true) ∧ none = a) ∨
        ∃ s b, t = some s ∧ Text.isBlankText s = false ∧ reader (Text.trim s) = .ok b ∧
          some b = a := by
  cases t with
  | none => simp [optional]
  | some s =>
      cases hs : Text.isBlankText s with
      | true => simp [optional, hs]
      | false => simp [optional, hs, Outcome.map_eq_ok]

theorem EntryUrl.read_eq_ok_iff {t : Text} {u : EntryUrl} :
    read t = .ok u ↔
      DistinguishedName.read true (field t).1 = .ok u.base ∧
        u.attributes = ((nextField (field t).2).1.map Text.commaEntries).getD [] ∧
        optional (fun s => (SearchScope.read s).mapError
          (.within (.keyword (.target .targetScope)))) (nextField (nextField (field t).2).2).1 =
            .ok u.scope ∧
        optional (fun s => (SearchFilter.read s).mapError (.within .filter))
          (nextField (nextField (field t).2).2).2 = .ok u.filter := by
  obtain ⟨base, attributes, scope, filter⟩ := u
  simp only [read, Outcome.bind_eq_ok, Outcome.mapError_eq_ok, pure, Except.pure, Except.ok.injEq,
    EntryUrl.mk.injEq]
  constructor
  · rintro ⟨base, hbase, scope, hscope, filter, hfilter, rfl, rfl, rfl, rfl⟩
    exact ⟨hbase, rfl, hscope, hfilter⟩
  · rintro ⟨hbase, rfl, hscope, hfilter⟩
    exact ⟨base, hbase, scope, hscope, filter, hfilter, rfl, rfl, rfl, rfl⟩

theorem NameEntry.read_eq_ok_iff {urls : Bool} {t : Text} {e : NameEntry} :
    read urls t = .ok e ↔
      (∃ s, SpecialName.ofName? (withoutScheme t) = some s ∧ special s = e) ∨
      (SpecialName.ofName? (withoutScheme t) = none ∧ '?' ∈ withoutScheme t ∧ urls = true ∧
        ∃ u, EntryUrl.read (withoutScheme t) = .ok u ∧ url u = e) ∨
      (SpecialName.ofName? (withoutScheme t) = none ∧ '?' ∉ withoutScheme t ∧
        ∃ d, DistinguishedName.read true (withoutScheme t) = .ok d ∧ dn d = e) := by
  simp only [read]
  split
  · rename_i s hs
    simp [hs]
  · rename_i hs
    by_cases hmark : '?' ∈ withoutScheme t
    · cases urls <;> simp [hs, hmark, Outcome.map_eq_ok]
    · simp [hs, hmark, Outcome.map_eq_ok, Outcome.mapError_eq_ok]

theorem NameList.read_eq_ok_iff {urls : Bool} {raw : Text} {l : NameList} :
    read urls raw = .ok l ↔
      ∃ items, List.Forall₂ (fun t e => NameEntry.read urls t = .ok e) (Text.entries raw) items ∧
        items ≠ [] ∧ ofList items = l := by
  simp only [read, Outcome.bind_eq_ok, Outcome.mapM_eq_ok]
  refine exists_congr fun items => and_congr_right fun _ => ?_
  cases items with
  | nil => simp
  | cons item items => simp

/-- Each member of a list that was read was read from an entry. -/
theorem NameList.exists_of_mem_items {urls : Bool} {raw : Text} {l : NameList}
    (h : read urls raw = .ok l) {e : NameEntry} (he : e ∈ l.items) :
    ∃ t ∈ Text.entries raw, NameEntry.read urls t = .ok e := by
  obtain ⟨items, hitems, -, rfl⟩ := read_eq_ok_iff.1 h
  exact Outcome.exists_of_mem_right hitems ((Distinct.ofList_sublist items).subset he)

theorem NameList.items_ne_nil_of_read {urls : Bool} {t : Text} {l : NameList}
    (h : read urls t = .ok l) : l.items ≠ [] := by
  obtain ⟨items, -, hne, rfl⟩ := read_eq_ok_iff.1 h
  exact Distinct.ofList_ne_nil hne

theorem InheritanceLevels.read_eq_ok_iff {t : Text} {l : InheritanceLevels} :
    read t = .ok l ↔
      ∃ found, List.Forall₂ (fun s n => readLevel s = .ok n) (Text.splitOn ',' t) found ∧
        (found.foldl insert empty).isEmpty = false ∧ found.foldl insert empty = l := by
  simp only [read, Outcome.bind_eq_ok, Outcome.mapM_eq_ok]
  refine exists_congr fun found => and_congr_right fun _ => ?_
  cases hempty : (found.foldl insert empty).isEmpty <;> simp

theorem AttributeBinding.readLevels_eq_ok_iff {raw binding : Text}
    {levels : Option InheritanceLevels} :
    readLevels raw = .ok (levels, binding) ↔
      (Text.stripFold? opening raw = none ∧ none = levels ∧ raw = binding) ∨
        ∃ rest digits l, Text.stripFold? opening raw = some rest ∧
          Text.cut? ']' rest = some (digits, '.' :: binding) ∧
          InheritanceLevels.read digits = .ok l ∧ some l = levels := by
  unfold readLevels
  split
  · rename_i hstrip
    simp [hstrip]
  · rename_i rest hstrip
    split
    · rename_i hcut
      simp [hstrip, hcut]
    · rename_i digits after hcut
      simp only [Outcome.bind_eq_ok, Outcome.mapError_eq_ok, hstrip, reduceCtorEq, false_and,
        Option.some.injEq, false_or, exists_and_left]
      constructor
      · rintro ⟨l, hl, h⟩
        split at h
        · simp only [pure, Except.pure, Except.ok.injEq, Prod.mk.injEq] at h
          obtain ⟨rfl, rfl⟩ := h
          exact ⟨rest, rfl, digits, hcut, l, hl, rfl⟩
        · cases h
      · rintro ⟨_, rfl, digits', hcut', l, hl, rfl⟩
        rw [hcut] at hcut'
        simp only [Option.some.injEq, Prod.mk.injEq] at hcut'
        obtain ⟨rfl, rfl⟩ := hcut'
        exact ⟨l, hl, rfl⟩

theorem AttributeBinding.read_eq_ok_iff {t : Text} {b : AttributeBinding} :
    read t = .ok b ↔
      ∃ binding name value, readLevels (Text.trim t) = .ok (b.levels, binding) ∧
        Text.cut? '#' binding = some (name, value) ∧ Text.trim name = b.attr ∧
        Text.isAttributeDescriptor b.attr = true ∧ Text.trim value ≠ [] ∧
        (b.levels.isSome = true → b.kind.namesEntry = true) ∧ .ofText (Text.trim value) = b.kind := by
  obtain ⟨levels, attr, kind⟩ := b
  simp only [read, Outcome.bind_eq_ok, Prod.exists]
  constructor
  · rintro ⟨levels', binding, hlevels, h⟩
    split at h
    · cases h
    · rename_i name value hcut
      split at h
      · cases h
      · rename_i hattr
        split at h
        · cases h
        · rename_i hvalue
          split at h
          · cases h
          · rename_i hnames
            cases h
            refine ⟨binding, name, value, hlevels, hcut, rfl, by simpa using hattr,
              by simpa using hvalue, ?_, rfl⟩
            intro hsome
            simpa [hsome] using hnames
  · rintro ⟨binding, name, value, hlevels, hcut, rfl, hattr, hvalue, hnames, rfl⟩
    refine ⟨levels, binding, hlevels, ?_⟩
    have hfirst : (levels.isSome && !(BindingKind.ofText (Text.trim value)).namesEntry) = false := by
      cases hsome : levels.isSome with
      | false => rfl
      | true => simp [hnames hsome]
    simp [hcut, hattr, hvalue, hfirst, pure, Except.pure]

theorem AddressList.foldl_push (l : AddressList) (ps : List Text) :
    (ps.foldl push l).addresses = Distinct.pushAll Text.sameFold l.addresses ps := by
  induction ps generalizing l with
  | nil => rfl
  | cons p ps ih => exact ih (l.push p)

theorem DomainList.foldl_push (l : DomainList) (names : List Text) :
    (names.foldl push l).names = Distinct.pushAll Text.sameFold l.names names := by
  induction names generalizing l with
  | nil => rfl
  | cons name names ih => exact ih (l.push name)

theorem AddressList.read_eq_ok_iff {raw : Text} {l : AddressList} :
    read raw = .ok l ↔
      Text.commaEntries raw ≠ [] ∧ (∀ p ∈ Text.commaEntries raw, isPattern p = true) ∧
        (Text.commaEntries raw).foldl push empty = l := by
  simp only [read]
  split
  · rename_i p hfind
    have hp := List.find?_some hfind
    have hmem := List.mem_of_find?_eq_some hfind
    simp only [reduceCtorEq, false_iff]
    rintro ⟨-, hall, -⟩
    simp [hall p hmem] at hp
  · rename_i hfind
    have hall : ∀ p ∈ Text.commaEntries raw, isPattern p = true := by
      simpa using hfind
    by_cases hempty : Text.commaEntries raw = [] <;> simp [hempty]
    exact fun _ => hall

theorem DomainList.read_eq_ok_iff {raw : Text} {l : DomainList} :
    read raw = .ok l ↔
      Text.commaEntries raw ≠ [] ∧ (∀ name ∈ Text.commaEntries raw, nameFault? name = none) ∧
        (Text.commaEntries raw).foldl push empty = l := by
  simp only [read]
  split
  · rename_i fault hfind
    obtain ⟨name, hmem, hname⟩ := List.exists_of_findSome?_eq_some hfind
    simp only [reduceCtorEq, false_iff]
    rintro ⟨-, hall, -⟩
    rw [hall name hmem] at hname
    cases hname
  · rename_i hfind
    have hall := List.findSome?_eq_none_iff.1 hfind
    by_cases hempty : Text.commaEntries raw = [] <;> simp [hempty]
    exact fun _ => hall

theorem DaySet.read_eq_ok_iff {raw : Text} {s : DaySet} :
    read raw = .ok s ↔
      (ofList ((Text.commaEntries raw).filterMap Day.ofName?)).isEmpty = false ∧
        ofList ((Text.commaEntries raw).filterMap Day.ofName?) = s := by
  simp only [read]
  split <;> simp_all

namespace Value

/-- The text reads as the value in the way of the bind keyword, blank or not. -/
def ReadsAs (k : BindKeyword) (raw : Text) (v : Value) : Prop :=
  match k with
  | .userDn | .roleDn | .groupDn => ∃ l, NameList.read true raw = .ok l ∧ names l = v
  | .userAttr | .groupAttr => ∃ b, AttributeBinding.read raw = .ok b ∧ binding b = v
  | .ip => ∃ l, AddressList.read raw = .ok l ∧ addresses l = v
  | .dns => ∃ l, DomainList.read raw = .ok l ∧ domains l = v
  | .dayOfWeek => ∃ s, DaySet.read raw = .ok s ∧ days s = v
  | .timeOfDay => ∃ t, ClockTime.read raw = .ok t ∧ time t = v
  | .authMethod => ∃ m, AuthMethod.read raw = .ok m ∧ method m = v
  | .ssf => ∃ s, Strength.read raw = .ok s ∧ strength s = v

theorem parseBind_eq_ok_iff {k : BindKeyword} {raw : Text} {v : Value} :
    parseBind k raw = .ok v ↔ Text.isBlankText raw = false ∧ ReadsAs k raw v := by
  rw [parseBind, Outcome.mapError_eq_ok]
  unfold readBind
  split
  · rename_i hblank
    simp [hblank]
  · rename_i hblank
    cases k <;> simp [hblank, ReadsAs, Outcome.map_eq_ok]

end Value

end DirectoryAccess
