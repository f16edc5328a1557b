import DirectoryAccess.Permission
import DirectoryAccess.Proofs.BitSet
import DirectoryAccess.Proofs.Outcome
import DirectoryAccess.Proofs.Text.Cut
import DirectoryAccess.Proofs.Text.Split
import DirectoryAccess.Proofs.Text.Trim

/-!
# Permissions read back

A set of rights without unknown positions is read from its own text, and reading
gives no other sets.
-/

namespace DirectoryAccess

namespace Right

theorem position_lt (r : Right) : r.position < 10 := by
  cases r <;> decide

theorem exists_position {q : Nat} (hq : q < 10) : ∃ r ∈ all, r.position = q := by
  revert q
  decide

end Right

namespace Rights

theorem eq_of_contains {s t : Rights} (h : ∀ q, s.set.contains q = t.set.contains q) : s = t := by
  obtain ⟨s⟩ := s
  obtain ⟨t⟩ := t
  congr 1
  exact BitSet.eq_of_contains h

theorem bits_all : all.bits = 895 :=
  rfl

theorem bits_full : full.bits = 1023 :=
  rfl

theorem testBit_bits (s : Rights) (q : Nat) : s.bits.testBit q = s.set.contains q :=
  BitVec.testBit_toNat s.set.bits

theorem contains_full (q : Nat) : full.set.contains q = decide (q < 10) := by
  rw [← testBit_bits, bits_full]
  exact Nat.testBit_two_pow_sub_one 10 q

/-- A set has only known positions if it holds no position behind those of the rights. -/
theorem isKnown_iff {s : Rights} :
    s.isKnown = true ↔ ∀ q, 10 ≤ q → s.set.contains q = false := by
  have hbit (q : Nat) : (s.set.bits &&& ~~~full.set.bits).getLsbD q =
      (s.set.contains q && !full.set.contains q) := by
    by_cases hq : q < 16
    · simp [BitSet.contains, hq]
    · simp [BitSet.contains, BitVec.getLsbD_of_ge _ _ (Nat.le_of_not_lt hq)]
  rw [isKnown, beq_iff_eq]
  constructor
  · intro h q hq
    have hzero := hbit q
    rw [h, contains_full, decide_eq_false (Nat.not_lt.2 hq)] at hzero
    simpa using hzero.symm
  · intro h
    refine BitVec.eq_of_getLsbD_eq fun q _ => ?_
    rw [hbit, contains_full]
    by_cases hq : q < 10
    · simp [hq]
    · simp [h q (Nat.le_of_not_lt hq)]

theorem contains_foldl_union (sets : List Rights) (s : Rights) (q : Nat) :
    (sets.foldl union s).set.contains q =
      (s.set.contains q || sets.any fun t => t.set.contains q) := by
  induction sets generalizing s with
  | nil => simp
  | cons t sets ih => rw [List.foldl_cons, ih, union, BitSet.contains_union, List.any_cons,
      Bool.or_assoc]

theorem contains_singleton (r : Right) (q : Nat) :
    (ofList [r]).set.contains q = decide (q = r.position) := by
  have hposition := r.position_lt
  rw [ofList, List.foldl_cons, List.foldl_nil, insert, BitSet.contains_insert, none,
    BitSet.contains_empty, Bool.false_or]
  by_cases hq : q = r.position
  · simp [hq]
    omega
  · simp [hq]

/-- A set of known positions is the union of its rights. -/
theorem foldl_union_rights {s : Rights} (h : s.isKnown = true) :
    (s.rights.map fun r => ofList [r]).foldl union none = s := by
  refine eq_of_contains fun q => ?_
  rw [contains_foldl_union, none, BitSet.contains_empty, Bool.false_or, List.any_map]
  cases hq : s.set.contains q with
  | false =>
      rw [List.any_eq_false]
      intro r hr hcontains
      rw [Function.comp_apply, contains_singleton, decide_eq_true_eq] at hcontains
      have hmem := (List.mem_filter.1 hr).2
      rw [contains, ← hcontains, hq] at hmem
      cases hmem
  | true =>
      have hlt : q < 10 := by
        by_contra hle
        rw [isKnown_iff.1 h q (Nat.le_of_not_lt hle)] at hq
        cases hq
      obtain ⟨r, hr, rfl⟩ := Right.exists_position hlt
      rw [List.any_eq_true]
      refine ⟨r, List.mem_filter.2 ⟨hr, hq⟩, ?_⟩
      rw [Function.comp_apply, contains_singleton, decide_eq_true_eq]

theorem trim_name (r : Right) : Text.trim r.name = r.name := by
  cases r <;> decide

theorem readPiece_name (r : Right) : readPiece r.name = .ok (ofList [r]) := by
  cases r <;> rfl

theorem comma_not_mem_name (r : Right) : ',' ∉ r.name := by
  cases r <;> decide

theorem parse_eq_ok_iff {t : Text} {s : Rights} :
    parse t = .ok s ↔
      ∃ sets, List.Forall₂ (fun piece set => readPiece piece = .ok set)
        ((Text.splitOn ',' t).map Text.trim) sets ∧ sets.foldl union none = s := by
  simp only [parse, Outcome.bind_eq_ok, Outcome.mapM_eq_ok, pure, Except.pure, Except.ok.injEq]

theorem parse_join_names {rs : List Right} (hne : rs ≠ []) :
    parse (Text.join [','] (rs.map Right.name)) =
      .ok ((rs.map fun r => ofList [r]).foldl union none) := by
  refine parse_eq_ok_iff.2 ⟨_, ?_, rfl⟩
  rw [Text.splitOn_join (by simpa using hne) (by simpa using fun r _ => comma_not_mem_name r),
    List.map_map, List.forall₂_map_left_iff, List.forall₂_map_right_iff, List.forall₂_same]
  intro r _
  rw [Function.comp_apply, trim_name, readPiece_name]

theorem rights_ne_nil {s : Rights} (hknown : s.isKnown = true) (hne : s ≠ none) :
    s.rights ≠ [] := by
  intro hnil
  have hall := foldl_union_rights hknown
  rw [hnil] at hall
  exact hne hall.symm

/-- A set of known positions is read from its own text. -/
theorem parse_text {s : Rights} (h : s.isKnown = true) : parse s.text = .ok s := by
  unfold text
  split
  · rename_i hs
    rw [hs]
    rfl
  · rename_i hnone
    split
    · rename_i hs
      rw [hs]
      rfl
    · split
      · rename_i hs
        rw [hs]
        rfl
      · rw [parse_join_names (rights_ne_nil h hnone), foldl_union_rights h]

theorem isKnown_of_ofName? {t : Text} {s : Rights} (h : ofName? t = some s) : s.isKnown = true := by
  unfold ofName? at h
  split at h
  · cases h
    rfl
  · split at h
    · cases h
      rfl
    · obtain ⟨r, -, rfl⟩ := Option.map_eq_some_iff.1 h
      cases r <;> rfl

/-- Reading gives sets of known positions only. -/
theorem isKnown_of_parse {t : Text} {s : Rights} (h : parse t = .ok s) : s.isKnown = true := by
  obtain ⟨sets, hsets, rfl⟩ := parse_eq_ok_iff.1 h
  have hall : ∀ set ∈ sets, set.isKnown = true := by
    intro set hset
    obtain ⟨piece, -, hpiece⟩ := Outcome.exists_of_mem_right hsets hset
    unfold readPiece at hpiece
    split at hpiece
    · rename_i hname
      cases hpiece
      exact isKnown_of_ofName? hname
    · cases hpiece
  rw [isKnown_iff]
  intro q hq
  rw [contains_foldl_union, none, BitSet.contains_empty, Bool.false_or, List.any_eq_false]
  intro set hset
  rw [isKnown_iff.1 (hall set hset) q hq]
  exact Bool.false_ne_true

theorem isAlpha_or_of_mem_text {s : Rights} {c : Char} (h : c ∈ s.text) :
    c.isAlpha = true ∨ c = ',' := by
  have hword {word : Text} (hall : word.all (fun c => c.isAlpha || c == ',') = true)
      (hc : c ∈ word) : c.isAlpha = true ∨ c = ',' := by
    simpa using List.all_eq_true.1 hall c hc
  unfold text at h
  split at h
  · exact hword (by decide) h
  · split at h
    · exact hword (by decide) h
    · split at h
      · exact hword (by decide) h
      · rcases Text.mem_join h with h | ⟨name, hname, h⟩
        · exact Or.inr (List.mem_singleton.1 h)
        · obtain ⟨r, -, rfl⟩ := List.mem_map.1 hname
          have hall : ∀ c ∈ r.name, c.isAlpha = true :=
            Text.forall_mem_of_all (by cases r <;> decide)
          exact Or.inl (hall c h)

theorem three_le_length_text {s : Rights} (h : s.isKnown = true) : 3 ≤ s.text.length := by
  unfold text
  split
  · decide
  · rename_i hnone
    split
    · decide
    · split
      · decide
      · obtain ⟨r, rs, hrights⟩ := List.exists_cons_of_ne_nil (rights_ne_nil h hnone)
        have hname : 3 ≤ r.name.length := by cases r <;> decide
        rw [hrights, List.map_cons, Text.join_cons, List.length_append]
        exact Nat.le_add_right_of_le hname

end Rights

namespace Permission

/-- What a permission writes in front of its last character. -/
def front (p : Permission) : Text :=
  p.disposition.name ++ '(' :: p.rights.text

theorem text_eq (p : Permission) : p.text = p.front ++ [')'] := by
  simp [text, front]

/-- The characters of a permission are no marks of other readers. -/
theorem isAlpha_or_of_mem_front {p : Permission} {c : Char} (h : c ∈ p.front) :
    c.isAlpha = true ∨ c = ',' ∨ c = '(' := by
  rcases List.mem_append.1 h with h | h
  · have hname : ∀ c ∈ p.disposition.name, c.isAlpha = true :=
      Text.forall_mem_of_all (by cases p.disposition <;> decide)
    exact Or.inl (hname c h)
  · rcases List.mem_cons.1 h with rfl | h
    · exact Or.inr (Or.inr rfl)
    · rcases Rights.isAlpha_or_of_mem_text h with h | h
      · exact Or.inl h
      · exact Or.inr (Or.inl h)

theorem closeParen_not_mem_front (p : Permission) : ')' ∉ p.front := by
  intro hmem
  rcases isAlpha_or_of_mem_front hmem with h | h | h <;> simp at h

theorem head?_front (p : Permission) : ∀ c ∈ p.front.head?, Text.isBlank c = false := by
  rw [front]
  cases p.disposition <;> simp [Disposition.name, Text.isBlank]

theorem isTrimmed_text (p : Permission) : p.text.IsTrimmed := by
  refine ⟨fun c hc => head?_front p c ?_, ?_⟩
  · rw [text_eq, List.head?_append] at hc
    cases hfront : p.front with
    | nil =>
        have hne : p.front ≠ [] := by simp [front]
        exact absurd hfront hne
    | cons d ds => simpa [hfront] using hc
  · rw [text_eq, List.getLast?_concat]
    simp [Text.isBlank]

theorem shortest_le_byteLength_text {p : Permission} (h : p.rights.isKnown = true) :
    shortest ≤ Text.byteLength p.text := by
  have hrights := Rights.three_le_length_text h
  have hname : 4 ≤ p.disposition.name.length := by cases p.disposition <;> decide
  refine Nat.le_trans ?_ (Text.length_le_byteLength p.text)
  simp only [shortest, text, List.length_append, List.length_cons, List.length_nil]
  omega

theorem ofName?_name (d : Disposition) :
    Disposition.ofName? (Text.lower (Text.trim d.name)) = some d := by
  cases d <;> rfl

/-- A permission to known rights is read from its own text. -/
theorem parse_text {p : Permission} (h : p.rights.isKnown = true) : parse p.text = .ok p := by
  have hstrip : Text.stripLast? ')' p.text = some p.front :=
    Text.stripLast?_eq_some_iff.2 p.text_eq
  have hparen : '(' ∉ p.disposition.name := by cases p.disposition <;> decide
  have hcut : Text.cut? '(' p.front = some (p.disposition.name, p.rights.text) :=
    Text.cut?_append_cons hparen p.rights.text
  have hlength := shortest_le_byteLength_text h
  simp only [parse, Text.trim_eq_self p.isTrimmed_text, hstrip, hcut,
    if_neg (Nat.not_lt.2 hlength), ofName?_name, Rights.parse_text h]
  rfl

theorem isKnown_of_parse {t : Text} {p : Permission} (h : parse t = .ok p) :
    p.rights.isKnown = true := by
  simp only [parse] at h
  split at h
  · cases h
  · split at h
    · cases h
    · split at h
      · cases h
      · split at h
        · cases h
        · obtain ⟨s, hs, rfl⟩ := Outcome.map_eq_ok.1 h
          exact Rights.isKnown_of_parse hs

end Permission

end DirectoryAccess
