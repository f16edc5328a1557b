import DirectoryAccess.Proofs.Text.Split

/-!
# Splitting text in a state

A splitter that leaves some delimiters alone carries a state along the text, and cuts only in the
state that it starts in.  Behind the delimiter it goes on in that state.  So each part is walked
through by itself as it is in the whole, and a part that is split again stays as it is.
-/

namespace DirectoryAccess

namespace Text

/-- The state in front of a text, and how each character changes it. -/
structure Walk (σ : Type) where
  start : σ
  after : Char → σ → σ

namespace Walk

variable {σ : Type} {w : Walk σ} {word : Text}

/-- The state behind a text that is walked through from the given state. -/
def behind (w : Walk σ) (state : σ) (t : Text) : σ :=
  t.foldl (fun state c => w.after c state) state

@[simp] theorem behind_nil (state : σ) : w.behind state [] = state :=
  rfl

@[simp] theorem behind_cons (state : σ) (c : Char) (t : Text) :
    w.behind state (c :: t) = w.behind (w.after c state) t :=
  rfl

theorem behind_append (state : σ) (s t : Text) :
    w.behind state (s ++ t) = w.behind (w.behind state s) t :=
  List.foldl_append

/--
A text that is walked through from `state` splits into a first part and others: it is cut where
the walk is in the state it starts in and the word stands, and every other character is kept.
-/
inductive Splits (w : Walk σ) (word : Text) : σ → Text → Text → List Text → Prop where
  | nil (state : σ) : Splits w word state [] [] []
  | cut {t rest part : Text} {parts : List Text} (ht : t = word ++ rest)
      (h : Splits w word w.start rest part parts) : Splits w word w.start t [] (part :: parts)
  | keep {state : σ} {c : Char} {t part : Text} {parts : List Text}
      (hno : state = w.start → ¬word <+: c :: t)
      (h : Splits w word (w.after c state) t part parts) :
      Splits w word state (c :: t) (c :: part) parts

namespace Splits

variable {state : σ} {t part : Text} {parts : List Text}

/-- Nothing is lost of a text that is split. -/
theorem join (h : Splits w word state t part parts) : Text.join word (part :: parts) = t := by
  induction h with
  | nil => rfl
  | cut ht h ih => rw [join_nil_cons _ (by simp), ih, ht]
  | keep hno h ih => rw [join_cons, List.cons_append, ← join_cons, ih]

theorem isPrefix (h : Splits w word state t part parts) : part <+: t := by
  rw [← h.join, join_cons]
  exact List.prefix_append part _

/-- The first part by itself is walked through as it is in the whole. -/
theorem first (h : Splits w word state t part parts) : Splits w word state part part [] := by
  induction h with
  | nil state => exact .nil state
  | cut ht h ih => exact .nil w.start
  | @keep state c t part parts hno h ih =>
      have hprefix : c :: part <+: c :: t := (List.prefix_cons_inj c).2 h.isPrefix
      exact .keep (fun hstart hword => hno hstart (hword.trans hprefix)) ih

/-- What stands behind the first cut is walked through as a text by itself is. -/
theorem rest (h : Splits w word state t part parts) {next : Text} {others : List Text}
    (hparts : parts = next :: others) :
    Splits w word w.start (Text.join word (next :: others)) next others := by
  induction h with
  | nil => cases hparts
  | cut ht h ih =>
      obtain ⟨rfl, rfl⟩ := List.cons.inj hparts
      rwa [h.join]
  | keep hno h ih => exact ih hparts

/-- Each part is the first part of what the text goes on with where the part starts. -/
theorem of_append {before after : List Text} {p : Text}
    (h : Splits w word w.start t part parts) (hparts : part :: parts = before ++ p :: after) :
    Splits w word w.start (Text.join word (p :: after)) p after := by
  induction before generalizing t part parts with
  | nil =>
      obtain ⟨rfl, rfl⟩ := List.cons.inj hparts
      rwa [h.join]
  | cons first before ih =>
      obtain ⟨-, hbehind⟩ := List.cons.inj hparts
      obtain ⟨next, others, hothers⟩ : ∃ next others, before ++ p :: after = next :: others :=
        List.exists_cons_of_ne_nil (by simp)
      exact ih (h.rest (hbehind.trans hothers)) hothers.symm

/-- A part by itself is not cut. -/
theorem whole_of_mem (h : Splits w word w.start t part parts) {p : Text}
    (hp : p ∈ part :: parts) : Splits w word w.start p p [] := by
  obtain ⟨before, after, hparts⟩ := List.append_of_mem hp
  exact (h.of_append hparts).first

/-- A text splits in one way. -/
theorem unique (hne : word ≠ []) (h : Splits w word state t part parts) {part' : Text}
    {parts' : List Text} (h' : Splits w word state t part' parts') :
    part = part' ∧ parts = parts' := by
  induction h generalizing part' parts' with
  | nil =>
      cases h' with
      | nil => exact ⟨rfl, rfl⟩
      | cut ht h' => exact absurd (List.append_eq_nil_iff.1 ht.symm).1 hne
  | cut ht h ih =>
      cases h' with
      | nil => exact absurd (List.append_eq_nil_iff.1 ht.symm).1 hne
      | cut ht' h' =>
          obtain rfl := List.append_cancel_left (ht.symm.trans ht')
          obtain ⟨rfl, rfl⟩ := ih h'
          exact ⟨rfl, rfl⟩
      | keep hno h' => exact absurd ⟨_, ht.symm⟩ (hno rfl)
  | keep hno h ih =>
      cases h' with
      | cut ht h' => exact absurd ⟨_, ht.symm⟩ (hno rfl)
      | keep hno' h' =>
          obtain ⟨rfl, rfl⟩ := ih h'
          exact ⟨rfl, rfl⟩

/-- Where the word stands before the first cut, the walk is not in the state it starts in. -/
theorem behind_ne_start (h : Splits w word state t part parts) {front : Text}
    (hlength : front.length < part.length) (hword : front ++ word <+: t) :
    w.behind state front ≠ w.start := by
  induction h generalizing front with
  | nil => cases hlength
  | cut ht h ih => cases hlength
  | keep hno h ih =>
      cases front with
      | nil => exact fun hstart => hno hstart hword
      | cons d front =>
          obtain ⟨rfl, hrest⟩ := List.cons_prefix_cons.1 hword
          exact ih (Nat.lt_of_succ_lt_succ hlength) hrest

/-- In front of a cut the walk is in the state it starts in. -/
theorem behind_eq_start (hword : w.behind w.start word = w.start)
    (h : Splits w word state t part parts) {before after : List Text} {next : Text}
    (hparts : parts = before ++ next :: after) :
    w.behind state (Text.join word (part :: before)) = w.start := by
  induction h generalizing before with
  | nil => simp at hparts
  | @cut _ _ second others ht h ih =>
      cases before with
      | nil => rw [join_singleton, behind_nil]
      | cons first before =>
          -- The word brings the walk back to the state it starts in, in which the rest is split.
          obtain ⟨rfl, hothers⟩ := List.cons.inj hparts
          rw [join_nil_cons _ (by simp), behind_append, hword]
          exact ih hothers
  | keep hno h ih =>
      rw [join_cons, List.cons_append, ← join_cons, behind_cons]
      exact ih hparts

end Splits

/-- The text splits into the parts, the first of which is split off from the given state. -/
def SplitsInto (w : Walk σ) (word : Text) (state : σ) (t : Text) (parts : List Text) : Prop :=
  ∃ first others, parts = first :: others ∧ w.Splits word state t first others

namespace SplitsInto

variable {state : σ} {t : Text} {parts : List Text}

theorem nil (state : σ) : w.SplitsInto word state [] [[]] :=
  ⟨[], [], rfl, .nil state⟩

theorem cut (h : w.SplitsInto word w.start t parts) :
    w.SplitsInto word w.start (word ++ t) ([] :: parts) := by
  obtain ⟨first, others, rfl, hsplits⟩ := h
  exact ⟨[], first :: others, rfl, .cut rfl hsplits⟩

theorem keep {c : Char} (hno : state = w.start → ¬word <+: c :: t)
    (h : w.SplitsInto word (w.after c state) t parts) :
    w.SplitsInto word state (c :: t) (consPart c parts) := by
  obtain ⟨first, others, rfl, hsplits⟩ := h
  exact ⟨c :: first, others, rfl, .keep hno hsplits⟩

end SplitsInto

end Walk

/--
The splitter cuts the text at free delimiters.  Whether a delimiter is free is a matter of what
stands in front of it: in the whole text for those that are cut out, in the part for the others.
-/
structure SplitsAtFree (split : Text → List Text) (delimiter : Text) (free : Text → Prop)
    (t : Text) : Prop where
  /-- Nothing is lost. -/
  join : Text.join delimiter (split t) = t
  /-- Every cut is at a free delimiter. -/
  cut_free {before after : List Text} (hsplit : split t = before ++ after) (hbefore : before ≠ [])
    (hafter : after ≠ []) : free (Text.join delimiter before)
  /-- No free delimiter starts in a part, not even one that ends behind it. -/
  cut_first {before after : List Text} {part front : Text}
    (hsplit : split t = before ++ part :: after) (hlength : front.length < part.length)
    (hfront : front ++ delimiter <+: Text.join delimiter (part :: after)) : ¬free front
  /-- A part that is split again stays as it is. -/
  split_part {part : Text} (hpart : part ∈ split t) : split part = [part]
  /-- No part holds a free delimiter. -/
  not_free {part front : Text} (hpart : part ∈ split t) (hfront : front ++ delimiter <+: part) :
    ¬free front

theorem Walk.splitsAtFree {σ : Type} (w : Walk σ) {word : Text} (hne : word ≠ [])
    (hword : w.behind w.start word = w.start) {split : Text → List Text}
    (hsplit : ∀ t, w.SplitsInto word w.start t (split t)) {free : Text → Prop}
    (hfree : ∀ front, free front ↔ w.behind w.start front = w.start) (t : Text) :
    SplitsAtFree split word free t := by
  obtain ⟨first, others, hparts, hsplits⟩ := hsplit t
  have hwhole {part : Text} (hpart : part ∈ split t) : w.Splits word w.start part part [] :=
    hsplits.whole_of_mem (hparts ▸ hpart)
  constructor
  case join => rw [hparts, hsplits.join]
  case cut_free =>
    intro before after hcut hbefore hafter
    obtain ⟨part, before, rfl⟩ := List.exists_cons_of_ne_nil hbefore
    obtain ⟨next, after, rfl⟩ := List.exists_cons_of_ne_nil hafter
    obtain ⟨rfl, hothers⟩ := List.cons.inj (hparts.symm.trans hcut)
    exact (hfree _).2 (hsplits.behind_eq_start hword hothers)
  case cut_first =>
    intro before after part front hcut hlength hfront
    rw [hfree]
    exact (hsplits.of_append (hparts.symm.trans hcut)).behind_ne_start hlength hfront
  case split_part =>
    intro part hpart
    obtain ⟨first', others', hparts', hsplits'⟩ := hsplit part
    obtain ⟨rfl, rfl⟩ := (hwhole hpart).unique hne hsplits'
    exact hparts'
  case not_free =>
    intro part front hpart hfront
    have hlength := hfront.length_le
    rw [List.length_append] at hlength
    have hpos := List.length_pos_iff.2 hne
    rw [hfree]
    exact (hwhole hpart).behind_ne_start (by omega) hfront

end Text

end DirectoryAccess
