import DirectoryAccess.Proofs.BitSet
import DirectoryAccess.Proofs.Text.Entries
import DirectoryAccess.Proofs.Text.Numeral
import DirectoryAccess.Proofs.Value.Descriptor

/-!
# Sets and bindings read back

A set that was read holds no position behind those that can be written, so that
its members, written in order, give the set again.  This makes a binding of an
attribute read back: its levels, its attribute and its kind stand apart in the
text that it writes.
-/

namespace DirectoryAccess

theorem Day.mem_all (d : Day) : d ∈ all := by
  cases d <;> decide

theorem Day.ofName?_abbreviation (d : Day) : ofName? d.abbreviation = some d := by
  cases d <;> rfl

theorem Day.isCommaEntry_abbreviation (d : Day) : Text.IsCommaEntry d.abbreviation := by
  cases d <;> exact ⟨by decide, Text.isTrimmed_of_trim_eq rfl, by decide⟩

namespace DaySet

theorem set_foldl_insert (s : DaySet) (ds : List Day) :
    (ds.foldl insert s).set = (ds.map Day.position).foldl BitSet.insert s.set := by
  induction ds generalizing s with
  | nil => rfl
  | cons d ds ih => exact ih (s.insert d)

theorem set_ofList (ds : List Day) :
    (ofList ds).set = (ds.map Day.position).foldl BitSet.insert .empty :=
  set_foldl_insert empty ds

/-- The days of a set that was built from days give the set again. -/
theorem ofList_days (ds : List Day) : ofList (ofList ds).days = ofList ds := by
  have hday {q : Nat} (hq : (ofList ds).set.contains q = true) : ∃ d : Day, d.position = q := by
    rw [set_ofList] at hq
    obtain ⟨d, -, hd⟩ := List.mem_map.1 (BitSet.mem_of_contains_foldl_insert hq)
    exact ⟨d, hd⟩
  have hset : (ofList (ofList ds).days).set = (ofList ds).set := by
    rw [set_ofList]
    apply BitSet.foldl_insert_eq
    intro q
    rw [List.mem_map]
    constructor
    · rintro ⟨d, hd, rfl⟩
      exact (List.mem_filter.1 hd).2
    · intro hq
      obtain ⟨d, rfl⟩ := hday hq
      exact ⟨d, List.mem_filter.2 ⟨d.mem_all, hq⟩, rfl⟩
  exact congrArg DaySet.mk hset

theorem commaEntries_text (s : DaySet) : Text.commaEntries s.text = s.days.map Day.abbreviation := by
  apply Text.commaEntries_join
  intro p hp
  obtain ⟨d, -, rfl⟩ := List.mem_map.1 hp
  exact d.isCommaEntry_abbreviation

theorem read_text {raw : Text} {s : DaySet} (h : read raw = .ok s) : read s.text = .ok s := by
  obtain ⟨hne, rfl⟩ := read_eq_ok_iff.1 h
  have hnames (ds : List Day) : (ds.map Day.abbreviation).filterMap Day.ofName? = ds := by
    rw [List.filterMap_map]
    have hname : Day.ofName? ∘ Day.abbreviation = some := funext Day.ofName?_abbreviation
    rw [hname, List.filterMap_some]
  rw [read_eq_ok_iff, commaEntries_text, hnames, ofList_days]
  exact ⟨hne, rfl⟩

end DaySet

namespace InheritanceLevels

theorem le_of_readLevel {t : Text} {n : Nat} (h : readLevel t = .ok n) : n ≤ highest := by
  unfold readLevel at h
  split at h
  · split at h
    · rename_i c _ hdigit
      obtain ⟨d, hd, rfl⟩ := Text.exists_digitChar hdigit
      rw [Nat.toNat_digitChar_of_lt_ten hd] at h
      cases h
      have hzero : '0'.toNat = 48 := rfl
      rw [highest, hzero]
      omega
    · cases h
  · cases h

theorem readLevel_ofNat {n : Nat} (h : n ≤ highest) : readLevel (Text.ofNat n) = .ok n := by
  revert n
  decide

theorem set_foldl_insert {found : List Nat} (h : ∀ n ∈ found, n ≤ highest) (l : InheritanceLevels) :
    (found.foldl insert l).set = found.foldl BitSet.insert l.set := by
  induction found generalizing l with
  | nil => rfl
  | cons n found ih =>
      have hn := h n (by simp)
      rw [List.foldl_cons, ih fun m hm => h m (List.mem_cons_of_mem n hm), insert, if_pos hn]
      rfl

/-- The levels that were read give the set again when they are inserted in order. -/
theorem foldl_insert_levels {l : InheritanceLevels} (h : ∀ n ∈ l.levels, n ≤ highest) :
    l.levels.foldl insert empty = l := by
  have hset : (l.levels.foldl insert empty).set = l.set := by
    rw [set_foldl_insert h]
    exact BitSet.foldl_insert_eq fun q => BitSet.mem_positions
  exact congrArg InheritanceLevels.mk hset

theorem le_of_mem_levels {t : Text} {l : InheritanceLevels} (h : read t = .ok l) :
    ∀ n ∈ l.levels, n ≤ highest := by
  obtain ⟨found, hfound, -, rfl⟩ := read_eq_ok_iff.1 h
  have hall : ∀ n ∈ found, n ≤ highest := by
    intro n hn
    obtain ⟨s, -, hs⟩ := Outcome.exists_of_mem_right hfound hn
    exact le_of_readLevel hs
  intro n hn
  apply hall
  rw [levels, BitSet.mem_positions, set_foldl_insert hall] at hn
  exact BitSet.mem_of_contains_foldl_insert hn

/-- A mark that is no digit stands in no numeral. -/
theorem not_mem_ofNat {c : Char} (hc : c.isDigit = false) (n : Nat) : c ∉ Text.ofNat n := by
  intro hmem
  rw [Text.isDigit_of_mem_ofNat hmem] at hc
  cases hc

theorem read_text {t : Text} {l : InheritanceLevels} (h : read t = .ok l) :
    read l.text = .ok l := by
  have hle := le_of_mem_levels h
  have hlevels := foldl_insert_levels hle
  obtain ⟨found, -, hsome, hfound⟩ := read_eq_ok_iff.1 h
  rw [hfound] at hsome
  have hne : l.levels ≠ [] := by
    intro hnil
    rw [hnil] at hlevels
    subst hlevels
    cases hsome
  rw [read_eq_ok_iff, text, Text.splitOn_join (by simpa using hne)]
  · refine ⟨l.levels, ?_, by rw [hlevels, hsome], hlevels⟩
    rw [List.forall₂_map_left_iff, List.forall₂_same]
    exact fun n hn => readLevel_ofNat (hle n hn)
  · intro p hp
    obtain ⟨n, -, rfl⟩ := List.mem_map.1 hp
    exact not_mem_ofNat (by decide) n

theorem not_mem_text {c : Char} (hdigit : c.isDigit = false) (hcomma : c ≠ ',')
    (l : InheritanceLevels) : c ∉ l.text := by
  intro hmem
  rcases Text.mem_join hmem with hmem | ⟨p, hp, hmem⟩
  · exact hcomma (List.mem_singleton.1 hmem)
  · obtain ⟨n, -, rfl⟩ := List.mem_map.1 hp
    exact not_mem_ofNat hdigit n hmem

theorem isTrimmed_text (l : InheritanceLevels) : l.text.IsTrimmed := by
  apply Text.isTrimmed_join (by decide)
  intro p hp
  obtain ⟨n, -, rfl⟩ := List.mem_map.1 hp
  exact Text.isTrimmed_ofNat n

end InheritanceLevels

namespace BindingKind

/-- A kind that was read is read from its own text. -/
theorem ofText_text (t : Text) : ofText (ofText t).text = ofText t := by
  unfold ofText
  cases hname : BindingType.ofName? t with
  | none => simp only [text, hname]
  | some b => cases b <;> rfl

theorem isTrimmed_text {t : Text} (ht : t.IsTrimmed) : (ofText t).text.IsTrimmed := by
  unfold ofText
  split
  · rename_i b _
    cases b <;> exact Text.isTrimmed_of_trim_eq rfl
  · exact ht

theorem text_ne_nil {t : Text} (ht : t ≠ []) : (ofText t).text ≠ [] := by
  unfold ofText
  split
  · rename_i b _
    cases b <;> decide
  · exact ht

end BindingKind

namespace AttributeBinding

def body (b : AttributeBinding) : Text :=
  b.attr ++ '#' :: b.kind.text

theorem text_eq (b : AttributeBinding) :
    b.text = (b.levels.map fun l => opening ++ l.text ++ "].".toList).getD [] ++ b.body := by
  unfold text body
  cases b.levels with
  | none => rfl
  | some l => simp

/-- No attribute is taken for the words that open the levels. -/
theorem stripFold?_opening {attr : Text} (h : '[' ∉ attr) (t : Text) :
    Text.stripFold? opening (attr ++ '#' :: t) = none := by
  apply Text.stripFold?_eq_none_of_lacks (by decide)
  apply Text.Lacks.of_not_mem (c := '[') (by decide)
  intro hmem
  obtain ⟨c, hc, hlower⟩ := List.mem_map.1 hmem
  rw [Text.eq_of_toLower (by decide) hlower] at hc
  exact h hc

theorem readLevels_text {b : AttributeBinding} (hattr : '[' ∉ b.attr)
    (hlevels : ∀ l ∈ b.levels, InheritanceLevels.read l.text = .ok l) :
    readLevels b.text = .ok (b.levels, b.body) := by
  obtain ⟨levels, attr, kind⟩ := b
  rw [readLevels_eq_ok_iff]
  cases levels with
  | none => exact Or.inl ⟨stripFold?_opening hattr kind.text, rfl, rfl⟩
  | some l =>
      have hread := hlevels l rfl
      have htext : text ⟨some l, attr, kind⟩ =
          opening ++ (l.text ++ ']' :: '.' :: body ⟨some l, attr, kind⟩) := by
        simp [text_eq]
      refine Or.inr ⟨l.text ++ ']' :: '.' :: body ⟨some l, attr, kind⟩, l.text, l, ?_, ?_, hread, rfl⟩
      · rw [htext, Text.stripFold?_append rfl]
      · exact Text.cut?_append_cons (l.not_mem_text (by decide) (by decide)) _

theorem isTrimmed_text {b : AttributeBinding} (hattr : b.attr.IsTrimmed)
    (hkind : b.kind.text.IsTrimmed) : b.text.IsTrimmed := by
  have hbody : b.body.IsTrimmed := Text.isTrimmed_append_cons (by decide) hattr hkind
  rw [text_eq]
  cases b.levels with
  | none => exact hbody
  | some l =>
      have hword : Text.IsTrimmed "parent".toList := Text.isTrimmed_of_trim_eq rfl
      have hnil : Text.IsTrimmed [] := Text.isTrimmed_of_trim_eq rfl
      have hdot : Text.IsTrimmed ('.' :: b.body) :=
        Text.isTrimmed_append_cons (by decide) hnil hbody
      have hopening : opening = "parent".toList ++ ['['] := rfl
      have hsplit : opening ++ l.text ++ "].".toList ++ b.body =
          ("parent".toList ++ '[' :: l.text) ++ ']' :: '.' :: b.body := by
        simp [hopening]
      rw [Option.map_some, Option.getD_some, hsplit]
      apply Text.isTrimmed_append_cons (by decide) _ hdot
      exact Text.isTrimmed_append_cons (by decide) hword l.isTrimmed_text

/-- A binding that was read is read from its own text. -/
theorem read_text {t : Text} {b : AttributeBinding} (h : read t = .ok b) :
    read b.text = .ok b := by
  obtain ⟨binding, name, value, hlevels, -, hname, hdescriptor, hvalue, hentry, hkind⟩ :=
    read_eq_ok_iff.1 h
  have htrim : Text.trim b.attr = b.attr := by rw [← hname, Text.trim_trim]
  have hkindTrim : b.kind.text.IsTrimmed := by
    rw [← hkind]
    exact BindingKind.isTrimmed_text (Text.isTrimmed_trim value)
  have hread : ∀ l ∈ b.levels, InheritanceLevels.read l.text = .ok l := by
    intro l hl
    rcases readLevels_eq_ok_iff.1 hlevels with ⟨-, hnone, -⟩ | ⟨_, digits, l', -, -, hl', hsome⟩
    · rw [← hnone] at hl
      cases hl
    · rw [← hsome] at hl
      obtain rfl := Option.some.inj hl
      exact InheritanceLevels.read_text hl'
  have hmark (c : Char) (hc : Text.isDescriptorChar c = false) : c ∉ b.attr :=
    Text.not_mem_of_isAttributeDescriptor hc htrim hdescriptor
  refine read_eq_ok_iff.2 ⟨b.body, b.attr, b.kind.text, ?_, ?_, htrim, hdescriptor, ?_, hentry, ?_⟩
  · rw [Text.trim_eq_self (isTrimmed_text (Text.isTrimmed_of_trim_eq htrim) hkindTrim)]
    exact readLevels_text (hmark '[' (by decide)) hread
  · exact Text.cut?_append_cons (hmark '#' (by decide)) b.kind.text
  · rw [Text.trim_eq_self hkindTrim, ← hkind]
    exact BindingKind.text_ne_nil hvalue
  · rw [Text.trim_eq_self hkindTrim, ← hkind, BindingKind.ofText_text]

end AttributeBinding

end DirectoryAccess
