import DirectoryAccess.Proofs.Distinct
import DirectoryAccess.Proofs.Text.Hereditary
import DirectoryAccess.Proofs.Value.Reading

/-!
# Values of target keywords

When the texts of a clause are read, and what the value that they give writes:
every hereditary property of the texts, and a first character at which no
separator of a clause starts.
-/

namespace DirectoryAccess

open Text (IsHereditary)

theorem ObjectId.read_eq_ok_iff {t : Text} {o : ObjectId} :
    read t = .ok o ↔
      2 ≤ (Text.splitOn '.' (Text.trim t)).length ∧
        (∀ arc ∈ Text.splitOn '.' (Text.trim t), arcFault? (Text.trim t) arc = none) ∧
        ⟨Text.trim t⟩ = o := by
  simp only [read]
  split
  · rename_i hfew
    simp only [reduceCtorEq, false_iff]
    omega
  · rename_i hmany
    split
    · rename_i fault hfault
      obtain ⟨arc, harc, hsome⟩ := List.exists_of_findSome?_eq_some hfault
      simp only [reduceCtorEq, false_iff]
      rintro ⟨-, hall, -⟩
      rw [hall arc harc] at hsome
      cases hsome
    · rename_i hfault
      rw [List.findSome?_eq_none_iff] at hfault
      simp only [Except.ok.injEq]
      exact ⟨fun h => ⟨Nat.le_of_not_lt hmany, hfault, h⟩, fun h => h.2.2⟩

theorem ObjectId.isDigit_of_arcFault? {whole arc : Text} (h : arcFault? whole arc = none) :
    arc ≠ [] ∧ arc.all Char.isDigit = true := by
  simp only [arcFault?] at h
  split at h
  · cases h
  · rename_i hdigits
    simpa only [Bool.or_eq_true, Bool.not_eq_true', not_or, Bool.not_eq_true,
      Bool.not_eq_false, List.isEmpty_eq_false_iff] using hdigits

theorem AttributeList.foldl_push (attributes names : List Text) :
    names.foldl push ⟨false, attributes⟩ =
      ⟨false, Distinct.pushAll Text.sameFold attributes names⟩ := by
  induction names generalizing attributes with
  | nil => rfl
  | cons name names ih =>
      rw [List.foldl_cons, push, if_neg Bool.false_ne_true, ih]
      rfl

theorem AttributeList.entryFault?_eq_none_iff {e : Text} :
    entryFault? e = none ↔ e ≠ ['*'] ∧ Text.isAttributeDescriptor e = true := by
  unfold entryFault?
  split
  · simp_all
  · split <;> simp_all

theorem AttributeList.read_eq_ok_iff {raw : Text} {l : AttributeList} :
    read raw = .ok l ↔
      (Text.entries raw = [['*']] ∧ everything = l) ∨
        (Text.entries raw ≠ [['*']] ∧ Text.entries raw ≠ [] ∧
          (∀ e ∈ Text.entries raw, e ≠ ['*'] ∧ Text.isAttributeDescriptor e = true) ∧
          (⟨false, Distinct.ofList Text.sameFold (Text.entries raw)⟩ : AttributeList) = l) := by
  simp only [read]
  split
  · rename_i hstar
    simp [beq_iff_eq.1 hstar]
  · rename_i hstar
    rw [beq_iff_eq] at hstar
    split
    · rename_i fault hfault
      obtain ⟨e, he, hsome⟩ := List.exists_of_findSome?_eq_some hfault
      simp only [reduceCtorEq, hstar, false_and, false_or, false_iff]
      rintro ⟨-, -, hall, -⟩
      rw [entryFault?_eq_none_iff.2 (hall e he)] at hsome
      cases hsome
    · rename_i hfault
      rw [List.findSome?_eq_none_iff] at hfault
      have hall := fun e he => entryFault?_eq_none_iff.1 (hfault e he)
      by_cases hempty : Text.entries raw = []
      · simp [hempty]
      · have hfold := foldl_push [] (Text.entries raw)
        simp only [List.isEmpty_iff, hempty, if_false, Except.ok.injEq, hstar, false_and,
          not_false_eq_true, true_and, false_or, ne_eq]
        rw [empty, hfold]
        exact ⟨fun h => ⟨hall, h⟩, fun h => h.2⟩

theorem ObjectIdList.foldl_push (ids : List ObjectId) (l : ObjectIdList) :
    ids.foldl push l = ⟨Distinct.pushAll (· == ·) l.items ids⟩ := by
  induction ids generalizing l with
  | nil => rfl
  | cons id ids ih => exact ih (l.push id)

theorem ObjectIdList.read_eq_ok_iff {raw : Text} {l : ObjectIdList} :
    read raw = .ok l ↔
      ∃ ids, List.Forall₂ (fun e id => ObjectId.read e = .ok id) (Text.entries raw) ids ∧
        ids ≠ [] ∧ ⟨Distinct.ofList (· == ·) ids⟩ = l := by
  simp only [read, Outcome.bind_eq_ok, Outcome.mapM_eq_ok, Outcome.mapError_eq_ok]
  refine exists_congr fun ids => and_congr_right fun _ => ?_
  have hfold := foldl_push ids empty
  cases ids with
  | nil => simp
  | cons id ids =>
      simp only [List.isEmpty_cons, Bool.false_eq_true, if_false, Except.ok.injEq, ne_eq,
        List.cons_ne_nil, not_false_eq_true, true_and]
      rw [hfold]
      rfl

/-- Each member of a list that was read was read from an entry. -/
theorem ObjectIdList.exists_of_mem_items {raw : Text} {l : ObjectIdList} (h : read raw = .ok l)
    {o : ObjectId} (ho : o ∈ l.items) : ∃ t ∈ Text.entries raw, ObjectId.read t = .ok o := by
  obtain ⟨ids, hids, -, rfl⟩ := read_eq_ok_iff.1 h
  exact Outcome.exists_of_mem_right hids ((Distinct.ofList_sublist ids).subset ho)

theorem ObjectIdList.items_ne_nil_of_read {t : Text} {l : ObjectIdList} (h : read t = .ok l) :
    l.items ≠ [] := by
  obtain ⟨ids, -, hne, rfl⟩ := read_eq_ok_iff.1 h
  exact Distinct.ofList_ne_nil hne

theorem AttributeFilter.read_eq_ok_iff {raw : Text} {f : AttributeFilter} :
    read raw = .ok f ↔
      ∃ name condition, Text.cut? ':' (Text.trim raw) = some (name, condition) ∧
        Text.trim name = f.attr ∧ Text.isAttributeDescriptor f.attr = true ∧
        SearchFilter.read condition = .ok f.filter := by
  obtain ⟨attr, filter⟩ := f
  simp only [read]
  split
  · rename_i hcut
    simp [hcut]
  · rename_i name condition hcut
    simp only [hcut, Option.some.injEq, Prod.mk.injEq]
    by_cases hattr : Text.isAttributeDescriptor (Text.trim name) = true
    · simp only [hattr, Bool.not_true, Bool.false_eq_true, if_false, Outcome.map_eq_ok,
        Outcome.mapError_eq_ok, AttributeFilter.mk.injEq]
      constructor
      · rintro ⟨s, hs, rfl, rfl⟩
        exact ⟨name, condition, ⟨rfl, rfl⟩, rfl, hattr, hs⟩
      · rintro ⟨_, _, ⟨rfl, rfl⟩, rfl, -, hs⟩
        exact ⟨filter, hs, rfl, rfl⟩
    · simp only [hattr, Bool.not_false, if_true, reduceCtorEq, false_iff]
      rintro ⟨_, _, ⟨rfl, rfl⟩, rfl, hdescriptor, -⟩
      exact hattr hdescriptor

theorem FilterChanges.readOperation_eq_ok_iff {seen : List Change} {raw : Text} {change : Change}
    {filters : List AttributeFilter} :
    readOperation seen raw = .ok (change, filters) ↔
      ∃ spelling clauses, Text.cut? '=' (Text.trim raw) = some (spelling, clauses) ∧
        Change.ofName? (Text.lower (Text.trim spelling)) = some change ∧ change ∉ seen ∧
        List.Forall₂ (fun part f => AttributeFilter.read part = .ok f)
          (Text.splitAtDepthZero "&&".toList clauses) filters := by
  simp only [readOperation]
  split
  · rename_i hcut
    simp [hcut]
  · rename_i spelling clauses hcut
    simp only [hcut, Option.some.injEq, Prod.mk.injEq]
    split
    · rename_i hname
      simp only [reduceCtorEq, false_iff]
      rintro ⟨_, _, ⟨rfl, rfl⟩, hsome, -⟩
      rw [hname] at hsome
      cases hsome
    · rename_i found hname
      by_cases hseen : found ∈ seen
      · simp only [List.contains_eq_mem, hseen, decide_true, if_true, reduceCtorEq, false_iff]
        rintro ⟨_, _, ⟨rfl, rfl⟩, hsome, hnot, -⟩
        rw [hname] at hsome
        cases hsome
        exact hnot hseen
      · simp only [List.contains_eq_mem, hseen, decide_false, Bool.false_eq_true, if_false,
          Outcome.bind_eq_ok, Outcome.mapM_eq_ok, pure, Except.pure, Except.ok.injEq,
          Prod.mk.injEq]
        constructor
        · rintro ⟨fs, hfs, rfl, rfl⟩
          exact ⟨spelling, clauses, ⟨rfl, rfl⟩, hname, hseen, hfs⟩
        · rintro ⟨_, _, ⟨rfl, rfl⟩, hsome, -, hfs⟩
          rw [hname] at hsome
          cases hsome
          exact ⟨filters, hfs, rfl, rfl⟩

theorem FilterChanges.read_eq_ok_iff {raw : Text} {c : FilterChanges} :
    read raw = .ok c ↔
      readOperations [] empty (splitOperations raw) = .ok c ∧ c.isEmpty = false := by
  simp only [read, Outcome.bind_eq_ok]
  constructor
  · rintro ⟨found, hfound, h⟩
    split at h
    · cases h
    · rename_i hempty
      cases h
      exact ⟨hfound, by simpa using hempty⟩
  · rintro ⟨hc, hempty⟩
    exact ⟨c, hc, by rw [hempty, if_neg Bool.false_ne_true]⟩

namespace Value

theorem single_eq_ok_iff {raws : List Text} {raw : Text} :
    single raws = .ok raw ↔ raws = [raw] := by
  match raws with
  | [] => simp [single]
  | [one] => simp [single]
  | one :: two :: rest => simp [single]

/-- The texts read as the value in the way of the target keyword, blank or not. -/
def TargetReadsAs (k : TargetKeyword) (raws : List Text) (v : Value) : Prop :=
  match k with
  | .target | .targetTo | .targetFrom =>
      ∃ l, NameList.read false (Text.join " || ".toList raws) = .ok l ∧ names l = v
  | .targetAttr => ∃ l, AttributeList.read (Text.join " || ".toList raws) = .ok l ∧ attributes l = v
  | .targetControl | .extOp =>
      ∃ l, ObjectIdList.read (Text.join " || ".toList raws) = .ok l ∧ objectIds l = v
  | .targetScope => ∃ raw s, raws = [raw] ∧ SearchScope.read raw = .ok s ∧ scope s = v
  | .targetFilter => ∃ raw f, raws = [raw] ∧ SearchFilter.read raw = .ok f ∧ filter f = v
  | .targetAttrFilters => ∃ raw c, raws = [raw] ∧ FilterChanges.read raw = .ok c ∧ changes c = v

theorem parseTarget_eq_ok_iff {k : TargetKeyword} {raws : List Text} {v : Value} :
    parseTarget k raws = .ok v ↔ raws.all Text.isBlankText = false ∧ TargetReadsAs k raws v := by
  rw [parseTarget, Outcome.mapError_eq_ok]
  unfold readTarget
  split
  · rename_i hblank
    simp [hblank]
  · rename_i hblank
    rw [Bool.not_eq_true] at hblank
    cases k <;>
      simp [hblank, TargetReadsAs, Outcome.map_eq_ok, Outcome.bind_eq_ok, Outcome.mapError_eq_ok,
        single_eq_ok_iff, pure, Except.pure]

end Value

section Hereditary

variable {P : Text → Prop} (hP : IsHereditary P)

include hP

theorem SearchFilter.hereditary_read {t : Text} {f : SearchFilter} (h : read t = .ok f)
    (ht : P t) : P f.text := by
  obtain ⟨-, -, rfl⟩ := read_eq_ok_iff.1 h
  have htrim := hP.trim ht
  simp only [parenthesized]
  split
  · exact htrim
  · exact hP.mark_cons (by decide) (hP.mark_concat (by decide) htrim)

theorem NameEntry.hereditary_withoutScheme {t : Text} (ht : P t) : P (withoutScheme t) := by
  unfold withoutScheme
  cases hstrip : Text.stripFold? scheme t with
  | none => exact ht
  | some rest =>
      obtain ⟨front, rfl, hfront⟩ := Text.stripFold?_eq_some hstrip
      -- The scheme ends with a mark that has no other case.
      rcases List.eq_nil_or_concat' front with rfl | ⟨front, c, rfl⟩
      · cases hfront
      · rw [Text.lower, List.map_append, List.map_singleton] at hfront
        have hlast := congrArg List.getLast? hfront
        rw [List.getLast?_concat] at hlast
        obtain rfl := Text.eq_of_toLower (by decide) (Option.some.inj hlast)
        rw [List.append_assoc, List.singleton_append] at ht
        exact (hP.of_append_cons (by decide) ht).2

theorem NameEntry.hereditary_text {rest : Text} (h : P rest) : P (scheme ++ rest) := by
  have hscheme : scheme ++ rest = "ldap".toList ++ ':' :: '/' :: '/' :: '/' :: rest := rfl
  rw [hscheme]
  refine hP.append_cons (by decide) (hP.letters (Text.forall_mem_of_all (by decide))) ?_
  exact hP.mark_cons (by decide) (hP.mark_cons (by decide) (hP.mark_cons (by decide) h))

theorem NameEntry.hereditary_read {t : Text} {e : NameEntry} (h : read false t = .ok e)
    (ht : P t) : P e.text := by
  rcases read_eq_ok_iff.1 h with ⟨s, -, rfl⟩ | ⟨-, -, hurls, -⟩ | ⟨-, -, d, hd, rfl⟩
  · exact hereditary_text hP (hP.letters (Text.forall_mem_of_all (by cases s <;> decide)))
  · cases hurls
  · obtain ⟨-, -, rfl⟩ := DistinguishedName.read_eq_ok_iff.1 hd
    exact hereditary_text hP (hP.trim (hereditary_withoutScheme hP ht))

theorem NameList.hereditary_read {t : Text} {l : NameList} (h : read false t = .ok l)
    (ht : P t) : ∀ e ∈ l.items, P e.text := by
  intro e he
  obtain ⟨entry, hentry, hread⟩ := exists_of_mem_items h he
  exact NameEntry.hereditary_read hP hread (hP.entry ht hentry)

theorem AttributeList.hereditary_read {t : Text} {l : AttributeList} (h : read t = .ok l)
    (ht : P t) : P l.text := by
  rcases read_eq_ok_iff.1 h with ⟨-, rfl⟩ | ⟨-, -, -, rfl⟩
  · exact hP.mark_cons (c := '*') (by decide) hP.nil
  · refine hP.join_spaced (by decide) fun e he => hP.entry ht ?_
    exact (Distinct.ofList_sublist _).subset he

theorem ObjectIdList.hereditary_read {t : Text} {l : ObjectIdList} (h : read t = .ok l)
    (ht : P t) : ∀ o ∈ l.items, P o.text := by
  intro o ho
  obtain ⟨entry, hentry, hread⟩ := exists_of_mem_items h ho
  obtain ⟨-, -, rfl⟩ := ObjectId.read_eq_ok_iff.1 hread
  exact hP.trim (hP.entry ht hentry)

theorem AttributeFilter.hereditary_read {t : Text} {f : AttributeFilter} (h : read t = .ok f)
    (ht : P t) : P f.text := by
  obtain ⟨name, condition, hcut, hname, -, hfilter⟩ := read_eq_ok_iff.1 h
  obtain ⟨hfirst, hsecond⟩ := hP.cut? (by decide) (hP.trim ht) hcut
  refine hP.append_cons (by decide) ?_ (SearchFilter.hereditary_read hP hfilter hsecond)
  rw [← hname]
  exact hP.trim hfirst

namespace FilterChanges

theorem hereditary_readOperation {seen : List Change} {t : Text} {change : Change}
    {filters : List AttributeFilter} (h : readOperation seen t = .ok (change, filters))
    (ht : P t) : ∀ f ∈ filters, P f.text := by
  obtain ⟨spelling, clauses, hcut, -, -, hfilters⟩ := readOperation_eq_ok_iff.1 h
  obtain ⟨-, hclauses⟩ := hP.cut? (by decide) (hP.trim ht) hcut
  intro f hf
  obtain ⟨part, hpart, hread⟩ := Outcome.exists_of_mem_right hfilters hf
  have hcuts : Text.CutsInto (fun c => Text.isMark c || c == ';') clauses
      (Text.splitAtDepthZero "&&".toList clauses) :=
    Text.splitAtDepth_cutsInto (by decide) (Text.forall_mem_of_all (by decide)) 0 clauses
  exact AttributeFilter.hereditary_read hP hread (hP.part hcuts hclauses part hpart)

theorem hereditary_readOperations {seen : List Change} {sofar c : FilterChanges} {ts : List Text}
    (h : readOperations seen sofar ts = .ok c) (hts : ∀ t ∈ ts, P t)
    (hsofar : (∀ f ∈ sofar.add, P f.text) ∧ ∀ f ∈ sofar.delete, P f.text) :
    (∀ f ∈ c.add, P f.text) ∧ ∀ f ∈ c.delete, P f.text := by
  induction ts generalizing seen sofar with
  | nil =>
      cases h
      exact hsofar
  | cons t ts ih =>
      rw [readOperations, Outcome.bind_eq_ok] at h
      obtain ⟨⟨change, filters⟩, hread, h⟩ := h
      have hfilters := hereditary_readOperation hP hread (hts t (by simp))
      refine ih h (fun u hu => hts u (List.mem_cons_of_mem t hu)) ?_
      cases change with
      | add => exact ⟨hfilters, hsofar.2⟩
      | delete => exact ⟨hsofar.1, hfilters⟩

theorem hereditary_operationText {name : Text} (hname : ∀ t, P t → P (name ++ t))
    {filters : List AttributeFilter} (h : ∀ f ∈ filters, P f.text) :
    ∀ t ∈ operationText name filters, P t := by
  intro t ht
  cases filters with
  | nil => cases ht
  | cons f fs =>
      obtain rfl := List.mem_singleton.1 ht
      refine hname _ (hP.join_spaced (by decide) ?_)
      simpa using h

theorem hereditary_read {t : Text} {c : FilterChanges} (h : read t = .ok c) (ht : P t) :
    P c.text := by
  obtain ⟨hoperations, -⟩ := read_eq_ok_iff.1 h
  have hcuts : Text.CutsInto (fun c => Text.isMark c || c == ';') t (splitOperations t) :=
    splitOperations_cutsInto (by decide) (by decide) 0 t
  obtain ⟨hadd, hdelete⟩ := hereditary_readOperations hP hoperations (hP.part hcuts ht)
    ⟨by simp [empty], by simp [empty]⟩
  have hname (word : Text) (hword : ∀ c ∈ word, c.isAlpha = true) (t : Text) (ht : P t) :
      P (word ++ ['='] ++ t) := by
    rw [List.append_assoc]
    exact hP.append_cons (by decide) (hP.letters hword) ht
  refine hP.join_comma fun u hu => ?_
  rcases List.mem_append.1 hu with hu | hu
  · have hword := hname "add".toList (Text.forall_mem_of_all (by decide))
    exact hereditary_operationText hP hword hadd u hu
  · have hword := hname "delete".toList (Text.forall_mem_of_all (by decide))
    exact hereditary_operationText hP hword hdelete u hu

end FilterChanges

end Hereditary

def Text.startsValue : Text → Bool
  | [] => false
  | c :: _ => c.isAlphanum || c == '*' || c == '('

theorem Text.startsValue_append {s : Text} (h : s.startsValue = true) (t : Text) :
    (s ++ t).startsValue = true := by
  cases s with
  | nil => cases h
  | cons c cs => exact h

theorem Text.startsValue_of_digits {s : Text} (hne : s ≠ []) (h : s.all Char.isDigit = true) :
    s.startsValue = true := by
  cases s with
  | nil => exact absurd rfl hne
  | cons c cs =>
      rw [List.all_cons, Bool.and_eq_true] at h
      simp [startsValue, Char.isAlphanum, h.1]

theorem Text.eq_append_of_splitOn {d : Char} {t part : Text} {parts : List Text}
    (h : Text.splitOn d t = part :: parts) : ∃ rest, t = part ++ rest := by
  have hjoin := join_splitOn d t
  rw [h, join_cons] at hjoin
  exact ⟨_, hjoin.symm⟩

theorem ObjectId.startsValue_of_read {t : Text} {o : ObjectId} (h : read t = .ok o) :
    o.text.startsValue = true := by
  obtain ⟨-, harcs, rfl⟩ := read_eq_ok_iff.1 h
  obtain ⟨arc, arcs, hsplit⟩ := List.exists_cons_of_ne_nil (Text.splitOn_ne_nil '.' (Text.trim t))
  have hdigits := isDigit_of_arcFault? (harcs arc (by simp [hsplit]))
  obtain ⟨rest, hrest⟩ := Text.eq_append_of_splitOn hsplit
  dsimp only
  rw [hrest]
  exact Text.startsValue_append (Text.startsValue_of_digits hdigits.1 hdigits.2) rest

theorem Text.startsValue_of_isAttributeDescriptor {t : Text} (htrim : Text.trim t = t)
    (h : Text.isAttributeDescriptor t = true) : t.startsValue = true := by
  rw [isAttributeDescriptor, Bool.or_eq_true] at h
  rcases h with h | h
  · unfold isOptionedName at h
    split at h
    · cases h
    · rename_i name options hsplit
      rw [Bool.and_eq_true] at h
      obtain ⟨rest, rfl⟩ := eq_append_of_splitOn hsplit
      refine startsValue_append ?_ rest
      cases name with
      | nil => cases h.1
      | cons c cs =>
          have hc := h.1
          rw [isShortName, Bool.and_eq_true] at hc
          simp [startsValue, Char.isAlphanum, hc.1]
  · unfold ObjectId.accepts at h
    cases hread : ObjectId.read t with
    | error e =>
        rw [hread] at h
        cases h
    | ok o =>
        have hstarts := ObjectId.startsValue_of_read hread
        obtain ⟨-, -, rfl⟩ := ObjectId.read_eq_ok_iff.1 hread
        rwa [htrim] at hstarts

theorem AttributeList.startsValue_of_read {t : Text} {l : AttributeList} (h : read t = .ok l) :
    l.text.startsValue = true := by
  rcases read_eq_ok_iff.1 h with ⟨-, rfl⟩ | ⟨-, hne, hall, rfl⟩
  · rfl
  · obtain ⟨e, es, hentries⟩ := List.exists_cons_of_ne_nil hne
    obtain ⟨kept, hkept⟩ : ∃ kept, Distinct.ofList Text.sameFold (e :: es) = e :: kept :=
      Distinct.exists_ofList_cons e es
    have hmem : e ∈ Text.entries t := by simp [hentries]
    obtain ⟨part, -, hpart, -⟩ := Text.mem_entries hmem
    have htrim : Text.trim e = e := by rw [hpart, Text.trim_trim]
    have hstarts := Text.startsValue_of_isAttributeDescriptor htrim (hall e hmem).2
    rw [text, if_neg Bool.false_ne_true, hentries, hkept, Text.join_cons]
    exact Text.startsValue_append hstarts _

theorem SearchFilter.startsValue_parenthesized (t : Text) :
    (parenthesized t).startsValue = true := by
  unfold parenthesized
  split <;> rfl

theorem FilterChanges.startsValue_text {c : FilterChanges} (h : c.isEmpty = false) :
    c.text.startsValue = true := by
  obtain ⟨add, delete⟩ := c
  cases add with
  | cons f fs =>
      rw [text, operationText, List.singleton_append, Text.join_cons]
      · rfl
      · simp
  | nil =>
      cases delete with
      | cons f fs =>
          rw [text, operationText, operationText, List.nil_append, Text.join_cons]
          · rfl
          · simp
      | nil => cases h

end DirectoryAccess
