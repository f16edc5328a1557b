import DirectoryAccess.Proofs.Text.Unescaped
import DirectoryAccess.Proofs.Value.Target

/-!
# Wildcards of names

A pattern is a name in which a `*` stands unescaped.  The readers look for it in
the value of each component, and `isPattern` looks for it in the name as a whole.
They find the same: an attribute type holds neither a `*` nor a backslash, and the
commas, plus signs and equals signs at which a name is cut escape nothing.
-/

namespace DirectoryAccess

namespace Text

theorem mem_trim_of_mem {c : Char} (hc : isBlank c = false) {t : Text} (h : c ∈ t) :
    c ∈ trim t := by
  obtain ⟨a, b, hsplit, ha, hb⟩ := exists_append_trim t
  rw [hsplit, List.mem_append, List.mem_append] at h
  rcases h with h | h | h
  · rw [ha c h] at hc
    cases hc
  · exact h
  · rw [hb c h] at hc
    cases hc

theorem not_mem_of_isShortName {c : Char} (hc : isNameChar c = false) {t : Text}
    (h : isShortName t = true) : c ∉ t := by
  cases t with
  | nil => cases h
  | cons d ds =>
      rw [isShortName, Bool.and_eq_true, List.all_eq_true] at h
      have hd : isNameChar d = true := by
        rw [isNameChar, Char.isAlphanum, h.1]
        rfl
      intro hmem
      rcases List.mem_cons.1 hmem with rfl | hmem
      · rw [hd] at hc
        cases hc
      · rw [h.2 c hmem] at hc
        cases hc

end Text

theorem ObjectId.not_mem_of_read {c : Char} (hdigit : c.isDigit = false) (hdot : c ≠ '.')
    {t : Text} {o : ObjectId} (h : read t = .ok o) : c ∉ Text.trim t := by
  obtain ⟨-, harcs, -⟩ := read_eq_ok_iff.1 h
  intro hmem
  rw [← Text.join_splitOn '.' (Text.trim t)] at hmem
  rcases Text.mem_join hmem with hmem | ⟨arc, harc, hmem⟩
  · exact hdot (List.mem_singleton.1 hmem)
  · have hdigits := (isDigit_of_arcFault? (harcs arc harc)).2
    rw [List.all_eq_true] at hdigits
    rw [hdigits c hmem] at hdigit
    cases hdigit

/-- An attribute type holds characters of names and dots only. -/
theorem Text.not_mem_of_isAttributeType {c : Char} (hname : isNameChar c = false)
    (hdot : c ≠ '.') (hblank : isBlank c = false) {t : Text} (h : isAttributeType t = true) :
    c ∉ t := by
  cases t with
  | nil => cases h
  | cons d ds =>
      rw [isAttributeType, Bool.or_eq_true, Bool.and_eq_true] at h
      rcases h with hshort | ⟨-, hid⟩
      · exact not_mem_of_isShortName hname hshort
      · have hdigit : c.isDigit = false := by
          simp only [isNameChar, Char.isAlphanum, Bool.or_eq_false_iff] at hname
          exact hname.1.2
        unfold ObjectId.accepts at hid
        cases hread : ObjectId.read (d :: ds) with
        | error e =>
            rw [hread] at hid
            cases hid
        | ok o =>
            exact fun hmem =>
              ObjectId.not_mem_of_read hdigit hdot hread (mem_trim_of_mem hblank hmem)

namespace DistinguishedName

open Text (PartBehind UnescapedBehind)

/-- The value of an attribute stands in a name behind `left`. -/
def ValueBehind (whole left value : Text) : Prop :=
  ∃ a relative b component name, PartBehind ',' whole a relative ∧
    PartBehind '+' relative b component ∧ Text.cut? '=' component = some (name, value) ∧
    left = a ++ (b ++ (name ++ ['=']))

theorem ValueBehind.isPrefix {whole left value : Text} (h : ValueBehind whole left value) :
    left ++ value <+: whole := by
  obtain ⟨a, relative, b, component, name, hrelative, hcomponent, hcut, rfl⟩ := h
  have hwhole : a ++ (b ++ component) <+: whole :=
    ((List.prefix_append_right_inj a).2 hcomponent.isPrefix).trans hrelative.isPrefix
  rw [(Text.cut?_eq_some hcut).1] at hwhole
  simpa using hwhole

theorem exists_valueBehind_iff {whole value : Text} :
    (∃ left, ValueBehind whole left value) ↔
      ∃ component ∈ components whole, ∃ name, Text.cut? '=' component = some (name, value) := by
  constructor
  · rintro ⟨_, a, relative, b, component, name, hrelative, hcomponent, hcut, -⟩
    exact ⟨component, List.mem_flatMap.2 ⟨relative, hrelative.mem, hcomponent.mem⟩, name, hcut⟩
  · rintro ⟨component, hmem, name, hcut⟩
    obtain ⟨relative, hrelative, hcomponent⟩ := List.mem_flatMap.1 hmem
    obtain ⟨a, ha⟩ := Text.exists_partBehind hrelative
    obtain ⟨b, hb⟩ := Text.exists_partBehind hcomponent
    exact ⟨_, a, relative, b, component, name, ha, hb, hcut, rfl⟩

/-- The equals sign in front of a value escapes nothing in it. -/
theorem ValueBehind.escaping_append {whole left value : Text} (h : ValueBehind whole left value)
    (inner : Text) : Text.escaping false (left ++ inner) = Text.escaping false inner := by
  obtain ⟨a, relative, b, component, name, -, -, -, rfl⟩ := h
  have hleft : a ++ (b ++ (name ++ ['='])) ++ inner = a ++ (b ++ name) ++ '=' :: inner := by simp
  rw [hleft, Text.escaping_append_cons (by decide)]

theorem ValueBehind.unescapedBehind {whole left value inner : Text}
    (h : ValueBehind whole left value) (hstar : UnescapedBehind '*' value inner) :
    UnescapedBehind '*' whole (left ++ inner) := by
  refine ⟨(h.escaping_append inner).trans hstar.1, ?_⟩
  rw [List.append_assoc]
  exact ((List.prefix_append_right_inj left).2 hstar.2).trans h.isPrefix

theorem componentFault?_eq_none_iff {wildcards : Bool} {whole component : Text} :
    componentFault? wildcards whole component = none ↔
      ∃ name value, Text.cut? '=' component = some (name, value) ∧
        Text.isAttributeType (Text.trim name) = true ∧ Text.isBlankText value = false ∧
        (wildcards = false → Text.hasUnescaped '*' value = false) := by
  unfold componentFault?
  cases hcut : Text.cut? '=' component with
  | none => simp
  | some parts =>
      obtain ⟨name, value⟩ := parts
      cases htype : Text.isAttributeType (Text.trim name) <;>
        cases hblank : Text.isBlankText value <;> cases wildcards <;> simp [htype, hblank]

/-- The name that is read with wildcards is one without if no value has one. -/
theorem read_false_eq_ok_iff {t : Text} {d : DistinguishedName} :
    read false t = .ok d ↔
      read true t = .ok d ∧
        ∀ left value, ValueBehind d.text left value → Text.hasUnescaped '*' value = false := by
  rw [read_eq_ok_iff, read_eq_ok_iff]
  constructor
  · rintro ⟨hne, hfaults, rfl⟩
    rw [List.findSome?_eq_none_iff] at hfaults
    refine ⟨⟨hne, List.findSome?_eq_none_iff.2 fun component hmem => ?_, rfl⟩,
      fun left value h => ?_⟩
    · obtain ⟨name, value, hcut, htype, hblank, -⟩ :=
        componentFault?_eq_none_iff.1 (hfaults component hmem)
      exact componentFault?_eq_none_iff.2 ⟨name, value, hcut, htype, hblank, by simp⟩
    · obtain ⟨component, hmem, name, hcut⟩ := exists_valueBehind_iff.1 ⟨left, h⟩
      obtain ⟨_, _, hcut', -, -, hstar⟩ :=
        componentFault?_eq_none_iff.1 (hfaults component hmem)
      rw [hcut] at hcut'
      cases hcut'
      exact hstar rfl
  · rintro ⟨⟨hne, hfaults, rfl⟩, hstars⟩
    rw [List.findSome?_eq_none_iff] at hfaults
    refine ⟨hne, List.findSome?_eq_none_iff.2 fun component hmem => ?_, rfl⟩
    obtain ⟨name, value, hcut, htype, hblank, -⟩ :=
      componentFault?_eq_none_iff.1 (hfaults component hmem)
    obtain ⟨left, hvalue⟩ := exists_valueBehind_iff.2 ⟨component, hmem, name, hcut⟩
    exact componentFault?_eq_none_iff.2
      ⟨name, value, hcut, htype, hblank, fun _ => hstars left value hvalue⟩

/-- No `*` stands in a name but in the value of an attribute. -/
theorem exists_valueBehind_of_star {wildcards : Bool} {t : Text} {d : DistinguishedName}
    (h : read wildcards t = .ok d) {front back : Text} (hstar : d.text = front ++ '*' :: back) :
    ∃ left value inner rest, ValueBehind d.text left value ∧ value = inner ++ '*' :: rest ∧
      front = left ++ inner := by
  obtain ⟨-, hfaults, rfl⟩ := read_eq_ok_iff.1 h
  dsimp only at hstar ⊢
  generalize Text.trim t = whole at *
  rw [List.findSome?_eq_none_iff] at hfaults
  -- The star stands in a relative name, and there in one of its components.
  obtain ⟨before, relative, after, u, v, hwhole, hrelative, rfl⟩ :=
    Text.exists_part_of_join (by decide) ((Text.join_splitEscaped ',' whole).trans hstar)
  obtain ⟨before', component, after', u', v', hrelative', hcomponent, rfl⟩ :=
    Text.exists_part_of_join (by decide) ((Text.join_splitEscaped '+' relative).trans hrelative)
  have ha : PartBehind ',' whole (before.flatMap (· ++ [','])) relative :=
    ⟨before, after, hwhole, rfl⟩
  have hb : PartBehind '+' relative (before'.flatMap (· ++ ['+'])) component :=
    ⟨before', after', hrelative', rfl⟩
  obtain ⟨name, value, hcut, htype, -⟩ := componentFault?_eq_none_iff.1
    (hfaults component (List.mem_flatMap.2 ⟨relative, ha.mem, hb.mem⟩))
  have hname : '*' ∉ name := fun hmem =>
    Text.not_mem_of_isAttributeType (by decide) (by decide) (by decide) htype
      (Text.mem_trim_of_mem (by decide) hmem)
  rw [(Text.cut?_eq_some hcut).1] at hcomponent
  obtain ⟨inner, rfl, rest, hvalue⟩ : ∃ inner, u' = name ++ '=' :: inner ∧
      ∃ rest, value = inner ++ '*' :: rest := by
    -- It is behind the equals sign, since the type of an attribute holds none.
    rcases List.append_eq_append_iff.1 hcomponent with ⟨w, hu, hrest⟩ | ⟨w, hname', hrest⟩
    · cases w with
      | nil => cases hrest
      | cons c w =>
          obtain ⟨rfl, hvalue⟩ := List.cons.inj hrest
          exact ⟨w, hu, v', hvalue⟩
    · cases w with
      | nil => cases hrest
      | cons c w =>
          obtain ⟨rfl, -⟩ := List.cons.inj hrest
          exact absurd (hname' ▸ List.mem_append_right u' List.mem_cons_self) hname
  exact ⟨_, value, inner, rest, ⟨_, relative, _, component, name, ha, hb, hcut, rfl⟩, hvalue,
    by simp⟩

/-- The wildcards of a name are those of its values. -/
theorem unescapedBehind_iff_of_read {wildcards : Bool} {t : Text} {d : DistinguishedName}
    (h : read wildcards t = .ok d) (front : Text) :
    UnescapedBehind '*' d.text front ↔
      ∃ left value inner, ValueBehind d.text left value ∧ UnescapedBehind '*' value inner ∧
        front = left ++ inner := by
  constructor
  · intro hstar
    obtain ⟨hescape, back, hsplit⟩ := Text.unescapedBehind_iff.1 hstar
    obtain ⟨left, value, inner, rest, hvalue, hinner, rfl⟩ := exists_valueBehind_of_star h hsplit
    rw [hvalue.escaping_append] at hescape
    exact ⟨left, value, inner, hvalue, Text.unescapedBehind_iff.2 ⟨hescape, rest, hinner⟩, rfl⟩
  · rintro ⟨left, value, inner, hvalue, hstar, rfl⟩
    exact hvalue.unescapedBehind hstar

theorem isPattern_iff {d : DistinguishedName} :
    d.isPattern = true ↔ ∃ front, UnescapedBehind '*' d.text front :=
  Text.hasUnescaped_iff (by decide)

theorem isPattern_iff_of_read {wildcards : Bool} {t : Text} {d : DistinguishedName}
    (h : read wildcards t = .ok d) :
    d.isPattern = true ↔
      ∃ left value, ValueBehind d.text left value ∧ Text.hasUnescaped '*' value = true := by
  rw [isPattern_iff]
  constructor
  · rintro ⟨front, hstar⟩
    obtain ⟨left, value, inner, hvalue, hstar, -⟩ := (unescapedBehind_iff_of_read h front).1 hstar
    exact ⟨left, value, hvalue, (Text.hasUnescaped_iff (by decide)).2 ⟨inner, hstar⟩⟩
  · rintro ⟨left, value, hvalue, hstar⟩
    obtain ⟨inner, hstar⟩ := (Text.hasUnescaped_iff (by decide)).1 hstar
    exact ⟨left ++ inner, hvalue.unescapedBehind hstar⟩

/--
A text is read as a name exactly if it is read as a pattern that is none; what makes a pattern
one is a `*` that nothing escapes, and the places of these in the name are their places in the
values of its attributes.
-/
theorem parse_eq_ok_iff_parsePattern (t : Text) (d : DistinguishedName) :
    (parse t = .ok d ↔ parsePattern t = .ok d ∧ d.isPattern = false) ∧
    (d.isPattern = true ↔ ∃ front, UnescapedBehind '*' d.text front) ∧
    (parsePattern t = .ok d → ∀ front, UnescapedBehind '*' d.text front ↔
      ∃ left value inner, ValueBehind d.text left value ∧ UnescapedBehind '*' value inner ∧
        front = left ++ inner) := by
  rw [parse, parsePattern, Outcome.mapError_eq_ok, Outcome.mapError_eq_ok]
  refine ⟨?_, isPattern_iff, unescapedBehind_iff_of_read⟩
  rw [read_false_eq_ok_iff]
  refine and_congr_right fun hread => ?_
  rw [← Bool.not_eq_true, isPattern_iff_of_read hread]
  simp only [not_exists, not_and, Bool.not_eq_true]

/-- The first `*` is escaped, the second one stands behind a backslash that is. -/
def starredName : Text :=
  "cn=a\\*b+sn=c\\\\*,dc=d".toList

theorem parse_eq_ok_iff_parsePattern_of_starredName :
    parsePattern starredName = .ok ⟨starredName⟩ ∧ parse starredName ≠ .ok ⟨starredName⟩ ∧
    ∃ left value inner, ValueBehind starredName left value ∧ UnescapedBehind '*' value inner ∧
      "cn=a\\*b+sn=c\\\\".toList = left ++ inner := by
  have hread : parsePattern starredName = .ok ⟨starredName⟩ := rfl
  obtain ⟨hname, -, hplaces⟩ := parse_eq_ok_iff_parsePattern starredName ⟨starredName⟩
  refine ⟨hread, fun h => ?_, (hplaces hread _).1 ⟨by decide, by decide⟩⟩
  exact absurd (hname.1 h).2 (by decide)

end DistinguishedName

end DirectoryAccess
