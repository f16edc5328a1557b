import DirectoryAccess.Proofs.Value.Binding
import DirectoryAccess.Proofs.Value.Names
import DirectoryAccess.Proofs.Value.Strength

/-!
# Bind values read back

Every value of a bind keyword is read from its own text, and the text does not
change from then on.  The value does not change either, with one exception: a
URL that says nothing but its base is read as a name.
-/

namespace DirectoryAccess

namespace Text

theorem words_of_isBlankText {t : Text} (h : isBlankText t = true) : words t = [] := by
  rw [isBlankText_iff_forall] at h
  induction t with
  | nil => rfl
  | cons c cs ih =>
      rw [words.eq_def]
      simp only [h c (by simp), if_true]
      exact ih fun d hd => h d (List.mem_cons_of_mem c hd)

/-- Distinct entries of a list between commas come back. -/
theorem commaEntries_join_ofList (same : Text → Text → Bool) (t : Text) :
    commaEntries (join [','] (Distinct.ofList same (commaEntries t))) =
      Distinct.ofList same (commaEntries t) :=
  commaEntries_join fun _ he => isCommaEntry_of_mem ((Distinct.ofList_sublist _).subset he)

end Text

theorem AddressList.foldl_push_empty (ps : List Text) :
    ps.foldl push empty = ⟨Distinct.ofList Text.sameFold ps⟩ :=
  congrArg AddressList.mk (foldl_push empty ps)

theorem AddressList.read_text {raw : Text} {l : AddressList} (h : read raw = .ok l) :
    read l.text = .ok l := by
  obtain ⟨hne, hall, rfl⟩ := read_eq_ok_iff.1 h
  rw [foldl_push_empty, read_eq_ok_iff, text, Text.commaEntries_join_ofList, foldl_push_empty,
    Distinct.ofList_ofList]
  refine ⟨Distinct.ofList_ne_nil hne, fun p hp => ?_, rfl⟩
  exact hall p ((Distinct.ofList_sublist _).subset hp)

theorem DomainList.foldl_push_empty (names : List Text) :
    names.foldl push empty = ⟨Distinct.ofList Text.sameFold names⟩ :=
  congrArg DomainList.mk (foldl_push empty names)

theorem DomainList.read_text {raw : Text} {l : DomainList} (h : read raw = .ok l) :
    read l.text = .ok l := by
  obtain ⟨hne, hall, rfl⟩ := read_eq_ok_iff.1 h
  rw [foldl_push_empty, read_eq_ok_iff, text, Text.commaEntries_join_ofList, foldl_push_empty,
    Distinct.ofList_ofList]
  refine ⟨Distinct.ofList_ne_nil hne, fun name hname => ?_, rfl⟩
  exact hall name ((Distinct.ofList_sublist _).subset hname)

namespace ClockTime

theorem toNat_pair {i j : Nat} (hi : i < 10) (hj : j < 10) :
    (pair (Nat.digitChar i) (Nat.digitChar j)).toNat = 10 * i + j := by
  have hzero : '0'.toNat = 48 := rfl
  rw [pair, Nat.toNat_digitChar_of_lt_ten hi, Nat.toNat_digitChar_of_lt_ten hj, hzero,
    UInt8.toNat_ofNat']
  omega

theorem value_of_ofHourMinute {hour minute : UInt8} {c : ClockTime}
    (h : ofHourMinute hour minute = .ok c) : c.value = hour.toNat * 100 + minute.toNat := by
  have hhour := hour.toNat_lt
  have hminute := minute.toNat_lt
  simp only [ofHourMinute] at h
  split at h
  · cases h
    simp only [value, UInt16.toNat_add, UInt16.toNat_mul, UInt8.toNat_toUInt16]
    have hhundred : (100 : UInt16).toNat = 100 := rfl
    rw [hhundred]
    omega
  · cases h

/-- A time is written with the four digits from which it was read. -/
theorem text_of_read {t : Text} {c : ClockTime} (h : read t = .ok c) : c.text = Text.trim t := by
  simp only [read] at h
  split at h
  · rename_i p q r s hraw
    split at h
    · rename_i hdigits
      rw [hraw]
      simp only [hraw, List.all_cons, List.all_nil, Bool.and_true, Bool.and_eq_true] at hdigits
      obtain ⟨hp, hq, hr, hs⟩ := hdigits
      obtain ⟨i, hi, rfl⟩ := Text.exists_digitChar hp
      obtain ⟨j, hj, rfl⟩ := Text.exists_digitChar hq
      obtain ⟨k, hk, rfl⟩ := Text.exists_digitChar hr
      obtain ⟨l, hl, rfl⟩ := Text.exists_digitChar hs
      have hvalue := value_of_ofHourMinute h
      rw [toNat_pair hi hj, toNat_pair hk hl] at hvalue
      have hdecimal : c.value = 10 * (10 * (10 * i + j) + k) + l := by omega
      have htext : c.text = Text.padded 4 c.value := rfl
      rw [htext, hdecimal, Text.padded_append (by decide) hl, Text.padded_append (by decide) hk,
        Text.padded_append (by decide) hj, Text.padded_one hi]
      rfl
    · cases h
  · cases h

theorem read_text {t : Text} {c : ClockTime} (h : read t = .ok c) : read c.text = .ok c := by
  rw [text_of_read h]
  unfold read at h ⊢
  rw [Text.trim_trim]
  exact h

end ClockTime

theorem AuthMethod.read_name (m : AuthMethod) : read m.name = .ok m := by
  cases m <;> rfl

/-- Holds for a URL that says nothing but its base. -/
def NameEntry.isBareUrl : NameEntry → Bool
  | url u => u.isBare
  | _ => false

theorem NameEntry.written_eq_self_iff {e : NameEntry} : e.written = e ↔ e.isBareUrl = false := by
  cases e with
  | special s => simp [written, isBareUrl]
  | dn d => simp [written, isBareUrl]
  | url u =>
      rw [written, isBareUrl]
      split
      · rename_i hbare
        simp [hbare]
      · rename_i hbare
        simpa using hbare

namespace Value

def holdsBareUrl : Value → Bool
  | names l => l.items.any NameEntry.isBareUrl
  | _ => false

/-- The value as which the text of a value is read. -/
def written : Value → Value
  | names l => names ⟨l.items.map NameEntry.written⟩
  | v => v

theorem text_written (v : Value) : v.written.text = v.text := by
  cases v
  case names l =>
    have hmap : NameEntry.text ∘ NameEntry.written = NameEntry.text :=
      funext NameEntry.text_written
    simp only [written, text, NameList.text, List.map_map, hmap]
  all_goals rfl

theorem written_eq_self_iff {v : Value} : v.written = v ↔ v.holdsBareUrl = false := by
  cases v
  case names l =>
    rw [written, holdsBareUrl, names.injEq, List.any_eq_false]
    constructor
    · intro h e he
      have hitems : l.items.map NameEntry.written = l.items.map id := by
        exact (congrArg NameList.items h).trans (List.map_id _).symm
      rw [Bool.not_eq_true]
      exact NameEntry.written_eq_self_iff.1 (List.map_inj_left.1 hitems e he)
    · intro h
      have hitems : l.items.map NameEntry.written = l.items.map id := by
        apply List.map_congr_left
        intro e he
        exact NameEntry.written_eq_self_iff.2 (by simpa using h e he)
      rw [hitems, List.map_id]
  all_goals simp [written, holdsBareUrl]

/-- No reader of a bind keyword accepts blank text. -/
theorem isBlankText_of_readsAs {k : BindKeyword} {raw : Text} {v : Value}
    (h : ReadsAs k raw v) : Text.isBlankText raw = false := by
  by_contra hblank
  rw [Bool.not_eq_false] at hblank
  have hentries := Text.entries_of_isBlankText hblank
  have hcommas := Text.commaEntries_of_isBlankText hblank
  have htrim := Text.isBlankText_iff.1 hblank
  cases k
  case userDn | roleDn | groupDn =>
    obtain ⟨l, hl, -⟩ := h
    obtain ⟨items, hitems, hne, -⟩ := NameList.read_eq_ok_iff.1 hl
    rw [hentries, List.forall₂_nil_left_iff] at hitems
    exact hne hitems
  case userAttr | groupAttr =>
    obtain ⟨b, hb, -⟩ := h
    simp only [AttributeBinding.read, htrim] at hb
    cases hb
  case ip =>
    obtain ⟨l, hl, -⟩ := h
    exact (AddressList.read_eq_ok_iff.1 hl).1 hcommas
  case dns =>
    obtain ⟨l, hl, -⟩ := h
    exact (DomainList.read_eq_ok_iff.1 hl).1 hcommas
  case dayOfWeek =>
    obtain ⟨s, hs, -⟩ := h
    have hempty := (DaySet.read_eq_ok_iff.1 hs).1
    rw [hcommas] at hempty
    cases hempty
  case timeOfDay =>
    obtain ⟨t, ht, -⟩ := h
    simp only [ClockTime.read, htrim] at ht
    cases ht
  case authMethod =>
    obtain ⟨m, hm, -⟩ := h
    simp only [AuthMethod.read, AuthMethod.ofName?, Text.words_of_isBlankText hblank] at hm
    cases hm
  case ssf =>
    obtain ⟨s, hs, -⟩ := h
    simp only [Strength.read, Strength.asked?, htrim] at hs
    cases hs

/-- The text of a value is read in the way of the keyword from which the value was read. -/
theorem readsAs_text {k : BindKeyword} {raw : Text} {v : Value} (h : ReadsAs k raw v) :
    ReadsAs k v.text v.written := by
  cases k
  case userDn | roleDn | groupDn =>
    obtain ⟨l, hl, rfl⟩ := h
    exact ⟨_, NameList.read_text hl, rfl⟩
  case userAttr | groupAttr =>
    obtain ⟨b, hb, rfl⟩ := h
    exact ⟨b, AttributeBinding.read_text hb, rfl⟩
  case ip =>
    obtain ⟨l, hl, rfl⟩ := h
    exact ⟨l, AddressList.read_text hl, rfl⟩
  case dns =>
    obtain ⟨l, hl, rfl⟩ := h
    exact ⟨l, DomainList.read_text hl, rfl⟩
  case dayOfWeek =>
    obtain ⟨s, hs, rfl⟩ := h
    exact ⟨s, DaySet.read_text hs, rfl⟩
  case timeOfDay =>
    obtain ⟨t, ht, rfl⟩ := h
    exact ⟨t, ClockTime.read_text ht, rfl⟩
  case authMethod =>
    obtain ⟨m, -, rfl⟩ := h
    exact ⟨m, m.read_name, rfl⟩
  case ssf =>
    obtain ⟨s, -, rfl⟩ := h
    exact ⟨s, s.read_text, rfl⟩

/--
The text of a bind value is read under the same keyword, as a value with the
same text; it is the same value unless it is a list that holds a URL of nothing
but its base.
-/
theorem parseBind_text {k : BindKeyword} {raw : Text} {v : Value} (h : parseBind k raw = .ok v) :
    ∃ w, parseBind k v.text = .ok w ∧ w.text = v.text ∧ (w = v ↔ v.holdsBareUrl = false) := by
  have hreads := readsAs_text (parseBind_eq_ok_iff.1 h).2
  refine ⟨v.written, ?_, text_written v, written_eq_self_iff⟩
  exact parseBind_eq_ok_iff.2 ⟨isBlankText_of_readsAs hreads, hreads⟩

/-- A URL with an empty field of attributes, and a special name. -/
def mereBase : Value :=
  .names ⟨[.url ⟨⟨"dc=a".toList⟩, [], none, none⟩, .special .self]⟩

theorem parseBind_mereBase :
    parseBind .userDn "ldap:///dc=a? || ldap:///self".toList = .ok mereBase := by
  rfl

theorem parseBind_text_of_mereBase :
    parseBind .userDn "ldap:///dc=a? || ldap:///self".toList = .ok mereBase ∧
      ∃ w, parseBind .userDn mereBase.text = .ok w ∧ w.text = mereBase.text ∧
        (w = mereBase ↔ mereBase.holdsBareUrl = false) :=
  ⟨parseBind_mereBase, parseBind_text parseBind_mereBase⟩

end Value

end DirectoryAccess
