import DirectoryAccess.Proofs.Outcome.Failing
import DirectoryAccess.Proofs.Permission

/-!
# Rights named by a text

A text names a set of rights by words between commas.  What it stands for depends
on which words occur in it, and not on their order, number, spacing or case.
-/

namespace DirectoryAccess

namespace Right

theorem name_injective {r s : Right} (h : r.name = s.name) : r = s := by
  revert h
  cases r <;> cases s <;> decide

theorem position_injective {r s : Right} (h : r.position = s.position) : r = s := by
  revert h
  cases r <;> cases s <;> decide

theorem ofName?_eq_some_iff {t : Text} {r : Right} : ofName? t = some r ↔ r.name = t := by
  constructor
  · intro h
    simpa using List.find?_some h
  · rintro rfl
    cases r <;> rfl

theorem ofName?_eq_none_iff {t : Text} : ofName? t = none ↔ ∀ r : Right, r.name ≠ t := by
  rw [Option.eq_none_iff_forall_ne_some]
  simp only [ne_eq, ofName?_eq_some_iff]

end Right

namespace Rights

def pieces (t : Text) : List Text :=
  (Text.splitOn ',' t).map Text.trim

/-- The pieces of a text between commas, trimmed and in lower case. -/
def words (t : Text) : List Text :=
  (pieces t).map Text.lower

/-- The word is the name of a right, or stands for a group of rights. -/
def IsName (word : Text) : Prop :=
  (∃ r : Right, r.name = word) ∨ word = "all".toList ∨ word = "none".toList

/-- The word is the name of the right, or stands for all rights, of which `proxy` is none. -/
def Names (word : Text) (r : Right) : Prop :=
  r.name = word ∨ (word = "all".toList ∧ r ≠ .proxy)

theorem names_all_iff {r : Right} : Names "all".toList r ↔ r ≠ .proxy := by
  have hname : r.name ≠ "all".toList := by cases r <;> decide
  simp only [Names, hname, true_and, false_or]

theorem not_names_none {r : Right} : ¬Names "none".toList r := by
  have hname : r.name ≠ "none".toList := by cases r <;> decide
  have hword : ("none".toList : Text) ≠ "all".toList := by decide
  simp only [Names, hname, hword, false_and, or_self, not_false_eq_true]

theorem names_name_iff {r s : Right} : Names r.name s ↔ s = r := by
  have hname : r.name ≠ "all".toList := by cases r <;> decide
  simp only [Names, hname, false_and, or_false]
  exact ⟨Right.name_injective, fun h => h ▸ rfl⟩

theorem contains_all {q : Nat} :
    all.set.contains q = true ↔ ∃ r : Right, r ≠ .proxy ∧ r.position = q := by
  rw [all, erase, BitSet.contains_erase, contains_full, Bool.and_eq_true, Bool.not_eq_true',
    decide_eq_true_eq, decide_eq_false_iff_not]
  constructor
  · rintro ⟨hq, hproxy⟩
    obtain ⟨r, -, rfl⟩ := Right.exists_position hq
    exact ⟨r, fun hr => hproxy (congrArg Right.position hr), rfl⟩
  · rintro ⟨r, hr, rfl⟩
    exact ⟨r.position_lt, fun heq => hr (Right.position_injective heq)⟩

theorem ofName?_eq_none_iff {word : Text} : ofName? word = Option.none ↔ ¬IsName word := by
  unfold ofName? IsName
  by_cases hall : word = "all".toList
  · simp [hall]
  · by_cases hnone : word = "none".toList
    · simp [hnone]
    · simp only [beq_iff_eq, hall, hnone, if_false, Option.map_eq_none_iff, or_false, not_exists]
      exact Right.ofName?_eq_none_iff

/-- A word stands for the rights that it names. -/
theorem contains_of_ofName? {word : Text} {s : Rights} (h : ofName? word = some s) (q : Nat) :
    s.set.contains q = true ↔ ∃ r, Names word r ∧ r.position = q := by
  unfold ofName? at h
  split at h
  · rename_i hword
    obtain rfl := beq_iff_eq.1 hword
    cases h
    simp only [contains_all, names_all_iff]
  · split at h
    · rename_i hword
      obtain rfl := beq_iff_eq.1 hword
      cases h
      simp only [none, BitSet.contains_empty, not_names_none, false_and, exists_false,
        Bool.false_eq_true]
    · obtain ⟨r, hr, rfl⟩ := Option.map_eq_some_iff.1 h
      obtain rfl := Right.ofName?_eq_some_iff.1 hr
      simp only [contains_singleton, decide_eq_true_eq, names_name_iff, exists_eq_left]
      exact eq_comm

theorem readPiece_eq_ok_iff {piece : Text} {s : Rights} :
    readPiece piece = .ok s ↔ ofName? (Text.lower piece) = some s := by
  rw [readPiece]
  cases ofName? (Text.lower piece) <;> simp

theorem readPiece_eq_error_iff {piece : Text} {e : Error} :
    readPiece piece = .error e ↔ ¬IsName (Text.lower piece) ∧ e = .unknownRight piece := by
  rw [← ofName?_eq_none_iff, readPiece]
  cases ofName? (Text.lower piece) <;> simp [eq_comm]

theorem exists_readPiece_iff {piece : Text} :
    (∃ s, readPiece piece = .ok s) ↔ IsName (Text.lower piece) := by
  rw [← not_not (a := IsName _), ← ofName?_eq_none_iff]
  simp only [readPiece_eq_ok_iff, Option.eq_none_iff_forall_ne_some, ne_eq, not_forall, not_not]

theorem parse_eq_error_iff {t : Text} {e : Error} :
    parse t = .error e ↔
      ∃ front piece rest, pieces t = front ++ piece :: rest ∧
        (∀ p ∈ front, IsName (Text.lower p)) ∧ ¬IsName (Text.lower piece) ∧
        e = .unknownRight piece := by
  simp only [parse, Outcome.bind_eq_error, pure, Except.pure, reduceCtorEq, and_false,
    exists_false, or_false, Outcome.mapM_eq_error, exists_readPiece_iff, readPiece_eq_error_iff,
    pieces]

theorem exists_parse_iff {t : Text} :
    (∃ s, parse t = .ok s) ↔ ∀ word ∈ words t, IsName word := by
  simp only [words, List.forall_mem_map, ← exists_readPiece_iff, ← Outcome.exists_mapM_iff,
    Outcome.mapM_eq_ok, parse_eq_ok_iff]
  constructor
  · rintro ⟨_, sets, hsets, -⟩
    exact ⟨sets, hsets⟩
  · rintro ⟨sets, hsets⟩
    exact ⟨_, sets, hsets, rfl⟩

theorem contains_of_parse {t : Text} {s : Rights} (h : parse t = .ok s) (q : Nat) :
    s.set.contains q = true ↔ ∃ word ∈ words t, ∃ r, Names word r ∧ r.position = q := by
  obtain ⟨sets, hsets, rfl⟩ := parse_eq_ok_iff.1 h
  rw [contains_foldl_union, none, BitSet.contains_empty, Bool.false_or, List.any_eq_true]
  simp only [words, List.mem_map, exists_exists_and_eq_and]
  constructor
  · rintro ⟨set, hset, hcontains⟩
    obtain ⟨piece, hpiece, hread⟩ := Outcome.exists_of_mem_right hsets hset
    exact ⟨piece, hpiece, (contains_of_ofName? (readPiece_eq_ok_iff.1 hread) q).1 hcontains⟩
  · rintro ⟨piece, hpiece, hnamed⟩
    obtain ⟨set, hset, hread⟩ := Outcome.exists_of_mem_left hsets hpiece
    exact ⟨set, hset, (contains_of_ofName? (readPiece_eq_ok_iff.1 hread) q).2 hnamed⟩

/-- A text is read as a set exactly if its words are names and the set is what they name. -/
theorem parse_eq_ok_iff_names {t : Text} {s : Rights} :
    parse t = .ok s ↔
      (∀ word ∈ words t, IsName word) ∧
        ∀ q, s.set.contains q = true ↔ ∃ word ∈ words t, ∃ r, Names word r ∧ r.position = q := by
  constructor
  · exact fun h => ⟨exists_parse_iff.1 ⟨s, h⟩, contains_of_parse h⟩
  · rintro ⟨hnames, hcontains⟩
    obtain ⟨found, hfound⟩ := exists_parse_iff.2 hnames
    have hsame : found = s := by
      refine eq_of_contains fun q => ?_
      rw [Bool.eq_iff_iff, contains_of_parse hfound, hcontains]
    rw [hfound, hsame]

/-- Sets of known positions are equal if they hold the same rights. -/
theorem eq_of_contains_right {s t : Rights} (hs : s.isKnown = true) (ht : t.isKnown = true)
    (h : ∀ r, s.contains r = t.contains r) : s = t := by
  refine eq_of_contains fun q => ?_
  by_cases hq : q < 10
  · obtain ⟨r, -, rfl⟩ := Right.exists_position hq
    exact h r
  · rw [isKnown_iff.1 hs q (Nat.le_of_not_lt hq), isKnown_iff.1 ht q (Nat.le_of_not_lt hq)]

end Rights

namespace Permission

/-- Permissions that were read are written alike only if they are equal. -/
theorem text_eq_iff_of_parse {t u : Text} {p q : Permission} (hp : parse t = .ok p)
    (hq : parse u = .ok q) :
    p.text = q.text ↔
      p.disposition = q.disposition ∧ ∀ r, p.rights.contains r = q.rights.contains r := by
  have hpknown := isKnown_of_parse hp
  have hqknown := isKnown_of_parse hq
  constructor
  · intro htext
    have hsame : (.ok p : Except Error Permission) = .ok q := by
      rw [← parse_text hpknown, htext, parse_text hqknown]
    obtain rfl := Except.ok.inj hsame
    exact ⟨rfl, fun _ => rfl⟩
  · rintro ⟨hdisposition, hrights⟩
    have hsame := Rights.eq_of_contains_right hpknown hqknown hrights
    rw [text, text, hdisposition, hsame]

end Permission

/--
A text of rights stands for the union of what its words name, and is refused at the first word
that is no name.  A permission that is read is sound, is read from its own text, and shares that
text only with permissions of the same disposition to the same rights.
-/
theorem rights_text_denotes_set :
    (∀ t, (∃ s, Rights.parse t = .ok s) ↔ ∀ word ∈ Rights.words t, Rights.IsName word) ∧
    (∀ t e, Rights.parse t = .error e ↔
      ∃ front piece rest, Rights.pieces t = front ++ piece :: rest ∧
        (∀ p ∈ front, Rights.IsName (Text.lower p)) ∧ ¬Rights.IsName (Text.lower piece) ∧
        e = .unknownRight piece) ∧
    (∀ t s, Rights.parse t = .ok s → ∀ q, s.bits.testBit q = true ↔
      ∃ word ∈ Rights.words t, ∃ r, Rights.Names word r ∧ r.position = q) ∧
    (∀ t u, (∀ word, word ∈ Rights.words t ↔ word ∈ Rights.words u) →
      ∀ s, Rights.parse t = .ok s ↔ Rights.parse u = .ok s) ∧
    ∀ t p, Permission.parse t = .ok p →
      p.check = .ok () ∧ Permission.parse p.text = .ok p ∧
      ∀ u q, Permission.parse u = .ok q →
        (p.text = q.text ↔
          p.disposition = q.disposition ∧ ∀ r, p.rights.contains r = q.rights.contains r) := by
  refine ⟨fun t => Rights.exists_parse_iff, fun t e => Rights.parse_eq_error_iff, ?_, ?_, ?_⟩
  · intro t s hs q
    rw [Rights.testBit_bits, Rights.contains_of_parse hs]
  · intro t u hwords s
    simp only [Rights.parse_eq_ok_iff_names, hwords]
  · intro t p hp
    have hknown := Permission.isKnown_of_parse hp
    refine ⟨?_, Permission.parse_text hknown, fun u q hq => Permission.text_eq_iff_of_parse hp hq⟩
    rw [Permission.check, if_pos hknown]

/-- Every right, by a group and by names in any case, one of them twice. -/
def shuffledRights : Text :=
  " Proxy,all,\tREAD,read ".toList

/-- Every right, by the same words. -/
def orderedRights : Text :=
  "all,proxy,read".toList

theorem rights_text_denotes_set_of_shuffledRights :
    Rights.parse shuffledRights = .ok .full ∧
      (∀ q, Rights.full.bits.testBit q = true ↔
        ∃ word ∈ Rights.words shuffledRights, ∃ r, Rights.Names word r ∧ r.position = q) ∧
      (∀ word, word ∈ Rights.words shuffledRights ↔ word ∈ Rights.words orderedRights) ∧
      Rights.parse orderedRights = .ok .full ∧
      Permission.parse ("DENY (".toList ++ shuffledRights ++ [')']) = .ok ⟨.deny, .full⟩ ∧
      Permission.check ⟨.deny, .full⟩ = .ok () ∧
      Permission.parse "deny(all,proxy)".toList = .ok ⟨.deny, .full⟩ := by
  have hshuffled : Rights.parse shuffledRights = .ok .full := rfl
  have hpermission : Permission.parse ("DENY (".toList ++ shuffledRights ++ [')']) =
      .ok ⟨.deny, .full⟩ := rfl
  have hwords (word : Text) :
      word ∈ Rights.words shuffledRights ↔ word ∈ Rights.words orderedRights := by
    have hleft : Rights.words shuffledRights =
        ["proxy".toList, "all".toList, "read".toList, "read".toList] := by decide +kernel
    have hright : Rights.words orderedRights =
        ["all".toList, "proxy".toList, "read".toList] := by decide +kernel
    rw [hleft, hright]
    simp only [List.mem_cons, List.not_mem_nil, or_false, or_self]
    exact or_left_comm
  obtain ⟨-, -, hbits, hsame, hpermissions⟩ := rights_text_denotes_set
  obtain ⟨hcheck, htext, -⟩ := hpermissions _ _ hpermission
  exact ⟨hshuffled, hbits _ _ hshuffled, hwords, (hsame _ _ hwords _).1 hshuffled, hpermission,
    hcheck, htext⟩

end DirectoryAccess
