import DirectoryAccess.Proofs.Text.Cut
import DirectoryAccess.Proofs.Text.Join

/-!
# Text without a word

A text lacks a word if the word stands nowhere in it, whatever the case of its
letters.  A character that is not in the word parts a text in two that lack the
word on their own, so that what a printer puts between parts brings no word
about that the parts lack.
-/

namespace DirectoryAccess

namespace Text

/-- What is no small letter is no other character in lower case. -/
theorem eq_of_toLower {c d : Char} (hd : d.isLower = false) (h : c.toLower = d) : c = d := by
  unfold Char.toLower at h
  split at h
  · rename_i hupper
    exfalso
    have hval : c.val + 32 = d.val := congrArg Char.val h
    have hlow : 65 ≤ c.val := hupper.1
    have hhigh : c.val ≤ 90 := hupper.2
    have hsmall : ¬(97 ≤ d.val ∧ d.val ≤ 122) := by
      unfold Char.isLower at hd
      simpa using hd
    rw [← hval] at hsmall
    rw [UInt32.le_iff_toNat_le] at hlow hhigh
    rw [UInt32.le_iff_toNat_le, UInt32.le_iff_toNat_le, UInt32.toNat_add] at hsmall
    simp at hlow hhigh hsmall
    omega
  · exact h

theorem toLower_of_isBlank {c : Char} (h : isBlank c = true) : c.toLower = c := by
  unfold Char.toLower
  split
  · rename_i hupper
    exfalso
    have hlow : 65 ≤ c.val := hupper.1
    have hhigh : c.val ≤ 90 := hupper.2
    unfold isBlank at h
    rw [UInt32.le_iff_toNat_le] at hlow hhigh
    simp only [Bool.or_eq_true, Bool.and_eq_true, decide_eq_true_eq, beq_iff_eq,
      UInt32.le_iff_toNat_le, ← UInt32.toNat_inj] at h
    simp at hlow hhigh h
    omega
  · rfl

theorem eq_of_lower {w m : Text} (hw : w.all (fun c => !c.isLower) = true) (h : lower m = w) :
    m = w := by
  induction w generalizing m with
  | nil => exact List.map_eq_nil_iff.1 h
  | cons d w ih =>
      rw [List.all_cons, Bool.and_eq_true, Bool.not_eq_true'] at hw
      cases m with
      | nil => cases h
      | cons c m =>
          obtain ⟨hc, hm⟩ := List.cons.inj h
          rw [eq_of_toLower hw.1 hc, ih hw.2 hm]

/-- The word stands nowhere in the text, in either case. -/
def Lacks (word t : Text) : Prop :=
  ∀ m, m <:+: t → lower m ≠ lower word

variable {word : Text}

theorem mem_lower_of_mem {c : Char} {m : Text} (h : c ∈ m) : c.toLower ∈ lower m :=
  List.mem_map_of_mem h

namespace Lacks

theorem of_isInfix {s t : Text} (h : Lacks word t) (hs : s <:+: t) : Lacks word s :=
  fun m hm => h m (hm.trans hs)

theorem nil (hword : word ≠ []) : Lacks word [] := by
  intro m hm hlower
  rw [List.infix_nil] at hm
  subst hm
  exact hword (List.map_eq_nil_iff.1 hlower.symm)

/-- A text that misses a character of the word lacks the word. -/
theorem of_not_mem {c : Char} (hc : c ∈ lower word) {t : Text} (ht : c ∉ lower t) :
    Lacks word t := by
  intro m hm hlower
  rw [← hlower] at hc
  exact ht (List.map_subset _ hm.subset hc)

/-- A character that is not in the word parts a text. -/
theorem append_cons {c : Char} (hc : c.toLower ∉ lower word) {s t : Text} (hs : Lacks word s)
    (ht : Lacks word t) : Lacks word (s ++ c :: t) := by
  intro m hm hlower
  have hnot : c ∉ m := fun hmem => hc (hlower ▸ mem_lower_of_mem hmem)
  rcases List.infix_append_iff.1 hm with hm | hm | ⟨l, r, rfl, hl, hr⟩
  · exact hs m hm hlower
  · rcases List.infix_cons_iff.1 hm with hm | hm
    · cases m with
      | nil => exact hs [] List.nil_infix hlower
      | cons d m => exact hnot (by simp [(List.cons_prefix_cons.1 hm).1])
    · exact ht m hm hlower
  · cases r with
    | nil => exact hs l hl.isInfix (by simpa using hlower)
    | cons d r => exact hnot (by simp [(List.cons_prefix_cons.1 hr).1])

theorem cons {c : Char} (hc : c.toLower ∉ (lower word).head?) {t : Text} (ht : Lacks word t) :
    Lacks word (c :: t) := by
  intro m hm hlower
  rcases List.infix_cons_iff.1 hm with hm | hm
  · cases m with
    | nil => exact ht [] List.nil_infix hlower
    | cons d m =>
        obtain ⟨rfl, -⟩ := List.cons_prefix_cons.1 hm
        rw [← hlower] at hc
        exact hc rfl
  · exact ht m hm hlower

theorem concat {c : Char} (hc : c.toLower ∉ (lower word).getLast?) {t : Text}
    (ht : Lacks word t) : Lacks word (t ++ [c]) := by
  intro m hm hlower
  rcases List.infix_concat_iff.1 hm with hm | hm
  · rcases List.eq_nil_or_concat' m with rfl | ⟨m, d, rfl⟩
    · exact ht [] List.nil_infix hlower
    · rw [← hlower, lower, List.map_append, List.map_singleton, List.getLast?_concat] at hc
      obtain ⟨front, hfront⟩ := hm
      rw [← List.append_assoc] at hfront
      obtain ⟨-, hd⟩ := List.append_inj' hfront rfl
      cases hd
      exact hc rfl
  · exact ht m hm hlower

theorem join {c : Char} (hc : c.toLower ∉ lower word) (hword : word ≠ []) {parts : List Text}
    (hparts : ∀ p ∈ parts, Lacks word p) : Lacks word (Text.join [c] parts) :=
  join_induction (nil hword) (fun _ _ hs ht => hs.append_cons hc ht) hparts

end Lacks

theorem stripFold?_append {m : Text} (hm : lower m = lower word) (rest : Text) :
    stripFold? word (m ++ rest) = some rest := by
  induction word generalizing m with
  | nil =>
      obtain rfl : m = [] := by simpa [lower] using hm
      rfl
  | cons w word ih =>
      cases m with
      | nil => cases hm
      | cons c m =>
          obtain ⟨hc, hm⟩ := List.cons.inj hm
          rw [List.cons_append, stripFold?, if_pos hc.symm, ih hm]

theorem stripFold?_append_of_eq_some {word t rest : Text} (h : stripFold? word t = some rest)
    (u : Text) : stripFold? word (t ++ u) = some (rest ++ u) := by
  obtain ⟨m, rfl, hm⟩ := stripFold?_eq_some h
  rw [List.append_assoc, stripFold?_append hm]

/-- A word that does not start with a character lies behind it, if anywhere. -/
theorem Lacks.cons_of_stripFold? {c : Char} {s t : Text} (hs : Lacks word s)
    (h : stripFold? word (c :: (s ++ t)) = none) : Lacks word (c :: s) := by
  intro n hn hlower
  rcases List.infix_cons_iff.1 hn with hn | hn
  · obtain ⟨rest, hrest⟩ := hn
    have hsome := stripFold?_append hlower (rest ++ t)
    rw [← List.append_assoc, hrest, List.cons_append, h] at hsome
    cases hsome
  · exact hs n hn hlower

/-- What stands before the first place of a word lacks the word. -/
theorem lacks_of_cutFold? (hword : word ≠ []) {t a b : Text} (h : cutFold? word t = some (a, b)) :
    Lacks word a ∧ ∃ m, t = a ++ (m ++ b) ∧ lower m = lower word := by
  induction t generalizing a with
  | nil => cases h
  | cons c cs ih =>
      rw [cutFold?] at h
      split at h
      · rename_i rest hstrip
        simp only [Option.some.injEq, Prod.mk.injEq] at h
        obtain ⟨rfl, rfl⟩ := h
        obtain ⟨front, hsplit, hfront⟩ := stripFold?_eq_some hstrip
        exact ⟨.nil hword, front, hsplit, hfront⟩
      · rename_i hstrip
        obtain ⟨⟨a', b'⟩, hparts, heq⟩ := Option.map_eq_some_iff.1 h
        obtain ⟨rfl, rfl⟩ := Prod.mk.inj heq
        obtain ⟨hlacks, m, rfl, hm⟩ := ih hparts
        exact ⟨hlacks.cons_of_stripFold? hstrip, m, rfl, hm⟩

theorem stripFold?_eq_none_of_lacks {c : Char} (hc : c.toLower ∉ lower word) {s : Text}
    (hs : Lacks word s) (rest : Text) : stripFold? word (s ++ c :: rest) = none := by
  cases hstrip : stripFold? word (s ++ c :: rest) with
  | none => rfl
  | some after =>
      exfalso
      obtain ⟨front, hsplit, hfront⟩ := stripFold?_eq_some hstrip
      have hnot : c ∉ front := fun hmem => hc (hfront ▸ mem_lower_of_mem hmem)
      rcases List.append_eq_append_iff.1 hsplit with ⟨l, rfl, hl⟩ | ⟨l, rfl, hl⟩
      · cases l with
        | nil => exact hs s (List.infix_refl s) (by simpa using hfront)
        | cons d l =>
            obtain ⟨rfl, -⟩ := List.cons.inj hl
            exact hnot (by simp)
      · exact hs front (List.prefix_append front l).isInfix hfront

/-- A text is cut at a word that stands behind a foreign character. -/
theorem cutFold?_append_cons {c : Char} (hc : c.toLower ∉ lower word) {s : Text}
    (hs : Lacks word s) (hword : word ≠ []) (rest : Text) :
    cutFold? word (s ++ c :: (word ++ rest)) = some (s ++ [c], rest) := by
  have hhere : cutFold? word (word ++ rest) = some ([], rest) := by
    have hstrip := stripFold?_append (rfl : lower word = lower word) rest
    cases word with
    | nil => exact absurd rfl hword
    | cons w word =>
        rw [List.cons_append] at hstrip ⊢
        rw [cutFold?, hstrip]
  induction s with
  | nil =>
      have hstrip := stripFold?_eq_none_of_lacks hc hs (word ++ rest)
      rw [List.nil_append] at hstrip ⊢
      rw [cutFold?, hstrip, hhere]
      rfl
  | cons d s ih =>
      have hstrip := stripFold?_eq_none_of_lacks hc hs (word ++ rest)
      have hrest := ih (hs.of_isInfix (List.suffix_cons d s).isInfix)
      rw [List.cons_append] at hstrip ⊢
      rw [cutFold?, hstrip, hrest]
      rfl

/-- A text that is as long as the word and does not start with it never does, when it goes on. -/
theorem stripFold?_append_eq_none {s : Text} (h : stripFold? word s = none)
    (hlength : word.length ≤ s.length) (t : Text) : stripFold? word (s ++ t) = none := by
  fun_induction stripFold? word s with
  | case1 => cases h
  | case2 w ws c cs heq ih =>
      rw [List.cons_append, stripFold?, if_pos heq]
      exact ih h (by simpa using hlength)
  | case3 w ws c cs hne => rw [List.cons_append, stripFold?, if_neg hne]
  | case4 => simp at hlength

/-- A text that has the word is cut inside, whatever stands behind it. -/
theorem cutFold?_append_of_not_lacks (hword : word ≠ []) {s : Text} (hs : ¬Lacks word s)
    (t : Text) :
    ∃ a m b, s = a ++ (m ++ b) ∧ lower m = lower word ∧
      cutFold? word (s ++ t) = some (a, b ++ t) := by
  induction s with
  | nil => exact absurd (.nil hword) hs
  | cons c s ih =>
      cases hstrip : stripFold? word (c :: s) with
      | some rest =>
          obtain ⟨m, hsplit, hm⟩ := stripFold?_eq_some hstrip
          have hhere := stripFold?_append_of_eq_some hstrip t
          refine ⟨[], m, rest, hsplit, hm, ?_⟩
          rw [List.cons_append] at hhere ⊢
          rw [cutFold?, hhere]
      | none =>
          -- The word does not start here, so it lies in the rest, which is long enough for it.
          have hrest : ¬Lacks word s := by
            intro hlacks
            exact hs (hlacks.cons_of_stripFold? (t := []) (by rwa [List.append_nil]))
          obtain ⟨a, m, b, rfl, hm, hcut⟩ := ih hrest
          have hlength : word.length ≤ (c :: (a ++ (m ++ b))).length := by
            have hmlength := congrArg List.length hm
            simp only [lower, List.length_map] at hmlength
            simp only [List.length_cons, List.length_append]
            omega
          have hnone := stripFold?_append_eq_none hstrip hlength t
          refine ⟨c :: a, m, b, rfl, hm, ?_⟩
          rw [List.cons_append] at hnone ⊢
          rw [cutFold?, hnone, hcut]
          rfl

end Text

end DirectoryAccess
