import DirectoryAccess.Proofs.Value.Filter
import DirectoryAccess.Proofs.Value.Measure
import DirectoryAccess.Proofs.Value.Names
import DirectoryAccess.Proofs.Value.Target

/-!
# How written values end

Most values escape nothing behind their text: either they hold no backslash, or
they end with a filter, which takes each of its backslashes together with the
character behind it.  The others end with a text that was trimmed or cut out of
its surroundings and kept as it stood: a distinguished name, an attribute of a
URL, or a value bound to an attribute.  Such a text may have lost the character
that its last backslash escaped.
-/

namespace DirectoryAccess

namespace Text

def backslashes (t : Text) : Nat :=
  t.count '\\'

theorem backslashes_isMeasure : IsMeasure backslashes where
  nil := rfl
  parted {c} hc s t := by
    have hslash : c ≠ '\\' := by
      rintro rfl
      exact absurd hc (by decide)
    simp only [backslashes]
    rw [List.count_append, List.count_cons_of_ne hslash]

theorem escaping_of_backslashes {t : Text} (h : backslashes t = 0) : escaping false t = false :=
  escaping_of_not_mem (List.count_eq_zero.1 h)

theorem backslashes_of_forall {p : Char → Bool} (hp : p '\\' = false) {t : Text}
    (h : ∀ c ∈ t, p c = true) : backslashes t = 0 := by
  apply List.count_eq_zero.2
  intro hmem
  rw [h '\\' hmem] at hp
  cases hp

theorem backslashes_of_splitOn {d : Char} (hd : isPlain d = true) {t : Text}
    (h : ∀ p ∈ splitOn d t, backslashes p = 0) : backslashes t = 0 := by
  rw [← backslashes_isMeasure.splitOn hd]
  apply List.sum_eq_zero
  intro n hn
  obtain ⟨p, hp, rfl⟩ := List.mem_map.1 hn
  exact h p hp

section Join

variable {separator : Text}

theorem escaping_join_concat (hseparator : ∀ e, escaping e separator = false)
    (parts : List Text) (last : Text) :
    escaping false (join separator (parts ++ [last])) = escaping false last := by
  induction parts with
  | nil => rw [List.nil_append, join_cons, List.flatMap_nil, List.append_nil]
  | cons part parts ih =>
      obtain ⟨next, others, hothers⟩ : ∃ next others, parts ++ [last] = next :: others :=
        List.exists_cons_of_ne_nil (by simp)
      rw [hothers] at ih
      rw [List.cons_append, hothers, join_cons_cons, escaping_append, escaping_append, hseparator]
      exact ih

theorem escaping_join (hseparator : ∀ e, escaping e separator = false) {parts : List Text}
    (h : ∀ p ∈ parts, escaping false p = false) : escaping false (join separator parts) = false := by
  rcases List.eq_nil_or_concat' parts with rfl | ⟨front, last, rfl⟩
  · rfl
  · rw [escaping_join_concat hseparator]
    exact h last (by simp)

end Join

theorem escaping_bars (e : Bool) : escaping e " || ".toList = false := by
  cases e <;> rfl

theorem escaping_comma (e : Bool) : escaping e [','] = false := by
  cases e <;> rfl

theorem backslashes_of_isShortName {t : Text} (h : isShortName t = true) : backslashes t = 0 := by
  cases t with
  | nil => cases h
  | cons c cs =>
      rw [isShortName, Bool.and_eq_true, List.all_eq_true] at h
      rw [backslashes_isMeasure.cons (isPlain_of_isAlpha h.1)]
      exact backslashes_of_forall (by decide) h.2

end Text

open Text (escaping backslashes)

theorem ObjectId.backslashes_of_read {t : Text} {o : ObjectId} (h : read t = .ok o) :
    backslashes o.text = 0 := by
  obtain ⟨-, harcs, rfl⟩ := read_eq_ok_iff.1 h
  apply Text.backslashes_of_splitOn (d := '.') (by decide)
  intro arc harc
  have hdigits := (isDigit_of_arcFault? (harcs arc harc)).2
  rw [List.all_eq_true] at hdigits
  exact Text.backslashes_of_forall (by decide) hdigits

theorem Text.backslashes_of_isAttributeDescriptor {t : Text}
    (h : isAttributeDescriptor t = true) : backslashes t = 0 := by
  rw [isAttributeDescriptor, Bool.or_eq_true] at h
  rcases h with hoptions | hid
  · apply backslashes_of_splitOn (d := ';') (by decide)
    unfold isOptionedName at hoptions
    split at hoptions
    · cases hoptions
    · rename_i name options hsplit
      rw [Bool.and_eq_true, List.all_eq_true] at hoptions
      rw [hsplit, List.forall_mem_cons]
      refine ⟨backslashes_of_isShortName hoptions.1, fun option hoption => ?_⟩
      have hchars := hoptions.2 option hoption
      rw [isAttributeOption, Bool.and_eq_true, List.all_eq_true] at hchars
      exact backslashes_of_forall (by decide) hchars.2
  · unfold ObjectId.accepts at hid
    cases hread : ObjectId.read t with
    | error e =>
        rw [hread] at hid
        cases hid
    | ok o =>
        have hslashes := ObjectId.backslashes_of_read hread
        obtain ⟨-, -, rfl⟩ := ObjectId.read_eq_ok_iff.1 hread
        rwa [backslashes_isMeasure.trim] at hslashes

theorem AddressList.backslashes_of_isPattern {p : Text} (h : isPattern p = true) :
    backslashes p = 0 := by
  rw [isPattern, Bool.or_eq_true] at h
  rcases h with hshort | hlong
  · rw [isShortPattern, Bool.and_eq_true, List.all_eq_true] at hshort
    exact Text.backslashes_of_forall (by decide) hshort.1
  · rw [isLongPattern, Bool.and_eq_true, List.all_eq_true] at hlong
    exact Text.backslashes_of_forall (by decide) hlong.2

theorem DomainList.backslashes_of_isLabel {t : Text} (h : isLabel t = true) :
    backslashes t = 0 := by
  rw [isLabel, Bool.or_eq_true] at h
  rcases h with hstar | hchars
  · rw [beq_iff_eq.1 hstar]
    rfl
  · simp only [Bool.and_eq_true, List.all_eq_true] at hchars
    exact Text.backslashes_of_forall (by decide) hchars.1.1.2

theorem DomainList.backslashes_of_nameFault? {name : Text} (h : nameFault? name = none) :
    backslashes name = 0 := by
  simp only [nameFault?] at h
  split at h
  · cases h
  · split at h
    · cases h
    · rw [Option.map_eq_none_iff, List.find?_eq_none] at h
      apply Text.backslashes_of_splitOn (d := '.') (by decide)
      intro label hlabel
      exact backslashes_of_isLabel (by simpa using h label hlabel)

theorem AddressList.escaping_text_of_read {t : Text} {l : AddressList} (h : read t = .ok l) :
    escaping false l.text = false := by
  obtain ⟨-, hall, rfl⟩ := read_eq_ok_iff.1 h
  rw [text, foldl_push]
  apply Text.escaping_join Text.escaping_comma
  intro p hp
  have hmem : p ∈ Text.commaEntries t := (Distinct.ofList_sublist _).subset hp
  exact Text.escaping_of_backslashes (backslashes_of_isPattern (hall p hmem))

theorem DomainList.escaping_text_of_read {t : Text} {l : DomainList} (h : read t = .ok l) :
    escaping false l.text = false := by
  obtain ⟨-, hall, rfl⟩ := read_eq_ok_iff.1 h
  rw [text, foldl_push]
  apply Text.escaping_join Text.escaping_comma
  intro name hname
  have hmem : name ∈ Text.commaEntries t := (Distinct.ofList_sublist _).subset hname
  exact Text.escaping_of_backslashes (backslashes_of_nameFault? (hall name hmem))

theorem AttributeList.escaping_text_of_read {t : Text} {l : AttributeList} (h : read t = .ok l) :
    escaping false l.text = false := by
  rcases read_eq_ok_iff.1 h with ⟨-, rfl⟩ | ⟨-, -, hall, rfl⟩
  · rfl
  · apply Text.escaping_join Text.escaping_bars
    intro e he
    have hmem : e ∈ Text.entries t := (Distinct.ofList_sublist _).subset he
    exact Text.escaping_of_backslashes
      (Text.backslashes_of_isAttributeDescriptor (hall e hmem).2)

theorem ObjectIdList.escaping_text_of_read {t : Text} {l : ObjectIdList} (h : read t = .ok l) :
    ∀ o ∈ l.items, escaping false o.text = false := by
  intro o ho
  obtain ⟨entry, -, hread⟩ := exists_of_mem_items h ho
  exact Text.escaping_of_backslashes (ObjectId.backslashes_of_read hread)

theorem AttributeFilter.escaping_text_of_read {t : Text} {f : AttributeFilter}
    (h : read t = .ok f) : escaping false f.text = false := by
  obtain ⟨name, condition, -, -, -, hfilter⟩ := read_eq_ok_iff.1 h
  rw [text, Text.escaping_append_cons (by decide)]
  exact SearchFilter.escaping_text_of_read hfilter

namespace FilterChanges

/-- What holds of every filter that was read holds of all the filters that operations come to. -/
theorem forall_readOperations {Q : AttributeFilter → Prop}
    (hQ : ∀ t f, AttributeFilter.read t = .ok f → Q f) {seen : List Change}
    {sofar c : FilterChanges} {ts : List Text} (h : readOperations seen sofar ts = .ok c)
    (hsofar : (∀ f ∈ sofar.add, Q f) ∧ ∀ f ∈ sofar.delete, Q f) :
    (∀ f ∈ c.add, Q f) ∧ ∀ f ∈ c.delete, Q f := by
  induction ts generalizing seen sofar with
  | nil =>
      cases h
      exact hsofar
  | cons t ts ih =>
      rw [readOperations, Outcome.bind_eq_ok] at h
      obtain ⟨⟨change, filters⟩, hread, h⟩ := h
      obtain ⟨_, _, -, -, -, hfilters⟩ := readOperation_eq_ok_iff.1 hread
      have hnew : ∀ f ∈ filters, Q f := by
        intro f hf
        obtain ⟨part, -, hpart⟩ := Outcome.exists_of_mem_right hfilters hf
        exact hQ part f hpart
      apply ih h
      cases change with
      | add => exact ⟨hnew, hsofar.2⟩
      | delete => exact ⟨hsofar.1, hnew⟩

theorem escaping_operationText {name : Text} {filters : List AttributeFilter}
    (h : ∀ f ∈ filters, escaping false f.text = false) (hname : escaping false name = false) :
    ∀ t ∈ operationText name filters, escaping false t = false := by
  intro t ht
  cases filters with
  | nil => cases ht
  | cons f fs =>
      obtain rfl := List.mem_singleton.1 ht
      rw [Text.escaping_append, hname]
      apply Text.escaping_join
      · intro e
        cases e <;> rfl
      · simpa using h

theorem escaping_text_of_read {t : Text} {c : FilterChanges} (h : read t = .ok c) :
    escaping false c.text = false := by
  obtain ⟨hoperations, -⟩ := read_eq_ok_iff.1 h
  obtain ⟨hadd, hdelete⟩ := forall_readOperations
    (fun _ _ => AttributeFilter.escaping_text_of_read) hoperations ⟨by simp [empty], by simp [empty]⟩
  apply Text.escaping_join Text.escaping_comma
  intro part hpart
  rcases List.mem_append.1 hpart with hpart | hpart
  · exact escaping_operationText hadd (by decide) part hpart
  · exact escaping_operationText hdelete (by decide) part hpart

end FilterChanges

/-- Holds for a name that ends with a distinguished name or with an attribute of a URL. -/
def NameEntry.endsAsRead : NameEntry → Bool
  | special _ => false
  | dn _ => true
  | url u => u.scope.isNone && u.filter.isNone

theorem SearchScope.backslashes_urlName (s : SearchScope) : backslashes s.urlName = 0 := by
  cases s <;> decide

theorem EntryUrl.escaping_text_of_read {t : Text} {u : EntryUrl} (h : read t = .ok u)
    (hends : (u.scope.isNone && u.filter.isNone) = false) : escaping false u.text = false := by
  have hread := isRead_of_read h
  cases hf : u.filter with
  | some f =>
      have hfilter := hread.filter f (by rw [hf]; rfl)
      rw [text_of_filter hf (SearchFilter.text_ne_nil hfilter)]
      simp only [Text.escaping_append_cons (c := '?') (by decide)]
      exact SearchFilter.escaping_text_of_read hfilter
  | none =>
      cases hs : u.scope with
      | some s =>
          rw [text_of_scope hf hs]
          simp only [Text.escaping_append_cons (c := '?') (by decide)]
          exact Text.escaping_of_backslashes s.backslashes_urlName
      | none =>
          rw [hf, hs] at hends
          cases hends

theorem NameEntry.escaping_scheme_append (t : Text) :
    escaping false (scheme ++ t) = escaping false t := by
  rw [Text.escaping_append]
  rfl

theorem NameEntry.escaping_text_of_read {urls : Bool} {t : Text} {e : NameEntry}
    (h : read urls t = .ok e) (hends : e.endsAsRead = false) : escaping false e.text = false := by
  rcases read_eq_ok_iff.1 h with ⟨s, -, rfl⟩ | ⟨-, -, -, u, hu, rfl⟩ | ⟨-, -, d, -, rfl⟩
  · cases s <;> decide
  · rw [text, escaping_scheme_append]
    exact EntryUrl.escaping_text_of_read hu hends
  · cases hends

theorem BindingType.backslashes_name (b : BindingType) : backslashes b.name = 0 := by
  cases b <;> decide

namespace Value

/-- Holds for a value whose text ends with a part of the text from which it was read. -/
def endsAsRead : Value → Bool
  | names l => (l.items.getLast?.map NameEntry.endsAsRead).getD false
  | binding b =>
      match b.kind with
      | .type _ => false
      | .value _ => true
  | _ => false

theorem escaping_text_names {urls : Bool} {t : Text} {l : NameList}
    (h : NameList.read urls t = .ok l) (hends : (names l).endsAsRead = false) :
    escaping false l.text = false := by
  have hread (e : NameEntry) (he : e ∈ l.items) := NameList.exists_of_mem_items h he
  obtain ⟨items⟩ := l
  rcases List.eq_nil_or_concat' items with rfl | ⟨front, last, rfl⟩
  · rfl
  · simp only [endsAsRead, List.getLast?_concat, Option.map_some, Option.getD_some] at hends
    obtain ⟨entry, -, hentry⟩ := hread last (by simp)
    rw [NameList.text, List.map_append, List.map_singleton,
      Text.escaping_join_concat Text.escaping_bars]
    exact NameEntry.escaping_text_of_read hentry hends

theorem escaping_text_binding {b : AttributeBinding} (hends : (binding b).endsAsRead = false) :
    escaping false b.text = false := by
  obtain ⟨levels, attr, kind⟩ := b
  cases kind with
  | value v => cases hends
  | type kind =>
      have hkind := Text.escaping_of_backslashes kind.backslashes_name
      cases levels with
      | none => simpa only [AttributeBinding.text, BindingKind.text,
          Text.escaping_append_cons (c := '#') (by decide)] using hkind
      | some levels => simpa only [AttributeBinding.text, BindingKind.text,
          Text.escaping_append_cons (c := '#') (by decide)] using hkind

/-- A value of a bind keyword escapes nothing behind it, unless it ends as it was read. -/
theorem escaping_text_of_parseBind {k : BindKeyword} {raw : Text} {v : Value}
    (h : parseBind k raw = .ok v) (hends : v.endsAsRead = false) :
    escaping false v.text = false := by
  obtain ⟨-, h⟩ := parseBind_eq_ok_iff.1 h
  cases k <;> obtain ⟨a, ha, rfl⟩ := h
  case userDn | roleDn | groupDn => exact escaping_text_names ha hends
  case userAttr | groupAttr => exact escaping_text_binding hends
  case ip => exact AddressList.escaping_text_of_read ha
  case dns => exact DomainList.escaping_text_of_read ha
  case dayOfWeek => exact Text.escaping_of_backslashes (a.measure_text Text.backslashes_isMeasure)
  case timeOfDay => exact Text.escaping_of_backslashes (a.measure_text Text.backslashes_isMeasure)
  case authMethod => exact Text.escaping_of_backslashes (a.measure_name Text.backslashes_isMeasure)
  case ssf => exact Text.escaping_of_backslashes (a.measure_text Text.backslashes_isMeasure)

end Value

end DirectoryAccess
