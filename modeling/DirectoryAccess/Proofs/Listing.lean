import DirectoryAccess.Proofs.Listing.Steps
import DirectoryAccess.Proofs.Text.Lacking
import DirectoryAccess.Proofs.Text.Split

/-!
# Folded lines

A line that is cut into pieces is written with a line feed and a blank in front
of every piece but the first.  A listing takes white space off the first piece,
carriage returns off every one, and looks for comments and blank lines before it
looks for the blank that joins a piece to those before it.  So the pieces come
together again exactly if none of this touches what stands between them.
-/

namespace DirectoryAccess

namespace Listing

/-! ## The name of the attribute -/

def hasName (line : Text) : Bool :=
  (Text.stripFold? "aci:".toList line).isSome

def body (line : Text) : Text :=
  (Text.stripFold? "aci:".toList line).getD line

theorem stripFold?_trim {line : Text} (h : ∀ c ∈ line.head?, Text.isBlank c = false) :
    Text.stripFold? "aci:".toList (Text.trim line) =
      (Text.stripFold? "aci:".toList line).map Text.trimEnd := by
  rw [Text.trim, Text.trimStart_eq_self h]
  cases hstrip : Text.stripFold? "aci:".toList line with
  | some rest =>
      obtain ⟨m, rfl, hm⟩ := Text.stripFold?_eq_some hstrip
      -- The name ends with a mark, so that trimming does not reach into it.
      rcases List.eq_nil_or_concat' m with rfl | ⟨front, c, rfl⟩
      · cases hm
      · have hlast := congrArg List.getLast? hm
        rw [Text.lower, List.map_append, List.map_singleton, List.getLast?_concat] at hlast
        obtain rfl : c = ':' := Text.eq_of_toLower (by decide) (Option.some.inj hlast)
        rw [List.append_assoc, List.singleton_append, Text.trimEnd_append_cons (by decide),
          List.append_cons, Text.stripFold?_append hm]
        rfl
  | none =>
      cases hend : Text.stripFold? "aci:".toList (Text.trimEnd line) with
      | none => rfl
      | some rest =>
          obtain ⟨blanks, hsplit, -⟩ := Text.exists_trimEnd_append line
          have hwhole := Text.stripFold?_append_of_eq_some hend blanks
          rw [← hsplit, hstrip] at hwhole
          cases hwhole

theorem hasName_iff {line : Text} :
    hasName line = true ↔ ∃ name, name <+: line ∧ Text.lower name = "aci:".toList := by
  rw [hasName, Option.isSome_iff_exists]
  constructor
  · rintro ⟨rest, h⟩
    obtain ⟨name, rfl, hname⟩ := Text.stripFold?_eq_some h
    exact ⟨name, List.prefix_append name rest, hname⟩
  · rintro ⟨name, ⟨rest, rfl⟩, hname⟩
    exact ⟨rest, Text.stripFold?_append hname rest⟩

theorem hasName_append {front : Text} (h : hasName front = true) (rest : Text) :
    hasName (front ++ rest) = true := by
  obtain ⟨name, hfront, hname⟩ := hasName_iff.1 h
  exact hasName_iff.2 ⟨name, hfront.trans (List.prefix_append front rest), hname⟩

/-- The name holds neither white space nor the mark of a comment. -/
theorem solid_of_mem_name {name : Text} (h : Text.lower name = "aci:".toList) {c : Char}
    (hc : c ∈ name) : Text.isBlank c = false ∧ c ≠ '#' := by
  have hlower : c.toLower ∈ "aci:".toList := h ▸ List.mem_map_of_mem hc
  have hmark : c ≠ '#' := by
    rintro rfl
    revert hlower
    decide
  have hsolid : ∀ d ∈ "aci:".toList, Text.isBlank d = false :=
    Text.forall_mem_of_all (by decide)
  refine ⟨?_, hmark⟩
  by_contra hblank
  rw [Bool.not_eq_false] at hblank
  rw [Text.toLower_of_isBlank hblank] at hlower
  rw [hsolid c hlower] at hblank
  cases hblank

theorem solid_of_cut_name {front rest : Text} (hfront : hasName front = false)
    (h : hasName (front ++ rest) = true) : ∀ c ∈ front, Text.isBlank c = false := by
  obtain ⟨name, hprefix, hname⟩ := hasName_iff.1 h
  have hinside : front <+: name := by
    rcases List.prefix_or_prefix_of_prefix hprefix (List.prefix_append front rest) with h | h
    · rw [hasName_iff.2 ⟨name, h, hname⟩] at hfront
      cases hfront
    · exact h
  exact fun c hc => (solid_of_mem_name hname (hinside.subset hc)).1

theorem body_of_not_hasName {line : Text} (h : hasName line = false) : body line = line := by
  rw [hasName, Option.isSome_eq_false_iff, Option.isNone_iff_eq_none] at h
  rw [body, h]
  rfl

theorem hasName_trim {line : Text} (h : hasName line = true) : hasName (Text.trim line) = true := by
  obtain ⟨name, hprefix, hname⟩ := hasName_iff.1 h
  have hhead : ∀ c ∈ line.head?, Text.isBlank c = false := by
    cases name with
    | nil => cases hname
    | cons c name =>
        obtain ⟨rest, rfl⟩ := hprefix
        simpa using (solid_of_mem_name hname (c := c) (by simp)).1
  rw [hasName, stripFold?_trim hhead, Option.isSome_map]
  exact h

/-- A line that opens a logical one opens it with what stands behind the name, trimmed. -/
theorem opening_eq {line : Text} (h : ∀ c ∈ line.head?, Text.isBlank c = false) :
    opening line = Text.trim (body line) := by
  rw [opening, withoutAttributeName, body, stripFold?_trim h]
  cases Text.stripFold? "aci:".toList line with
  | none => rfl
  | some rest => exact Text.trimStart_trimEnd rest

/-! ## Physical lines -/

def withoutReturns (line : Text) : Text :=
  (line.reverse.dropWhile (· == '\r')).reverse

theorem exists_withoutReturns_append (line : Text) :
    ∃ returns, line = withoutReturns line ++ returns ∧ Text.isBlankText returns = true := by
  refine ⟨(line.reverse.takeWhile (· == '\r')).reverse, ?_, ?_⟩
  · rw [withoutReturns, ← List.reverse_append, List.takeWhile_append_dropWhile,
      List.reverse_reverse]
  · rw [Text.isBlankText_iff_forall]
    intro c hc
    have hreturn := List.mem_takeWhile_imp (List.mem_reverse.1 hc)
    rw [beq_iff_eq.1 hreturn]
    rfl

theorem withoutReturns_of_getLast? {line : Text} (h : line.getLast? ≠ some '\r') :
    withoutReturns line = line := by
  rw [← List.head?_reverse] at h
  rw [withoutReturns, List.reverse_eq_iff]
  cases hreverse : line.reverse with
  | nil => rfl
  | cons c rest =>
      rw [hreverse] at h
      exact List.dropWhile_cons_of_neg (by simpa using h)

theorem getLast?_withoutReturns (line : Text) : (withoutReturns line).getLast? ≠ some '\r' := by
  intro hlast
  have hfirst := List.head?_dropWhile_not (· == '\r') line.reverse
  rw [← List.head?_reverse, withoutReturns, List.reverse_reverse] at hlast
  rw [hlast] at hfirst
  cases hfirst

theorem withoutReturns_cons {c : Char} (hc : c ≠ '\r') (line : Text) :
    withoutReturns (c :: line) = c :: withoutReturns line := by
  rw [withoutReturns, List.reverse_cons, List.dropWhile_append, withoutReturns]
  split
  · rename_i hnil
    rw [List.isEmpty_iff.1 hnil, List.dropWhile_cons_of_neg (by simpa using hc)]
    rfl
  · rw [List.reverse_append]
    rfl

/-- The pieces of a line, each but the first on a line of its own, behind a blank. -/
def fold (first : Text) (others : List Text) : Text :=
  Text.join "\n ".toList (first :: others)

/-- The physical lines of the pieces behind the first. -/
def continuations (pieces : List Text) : List Text :=
  pieces.map fun piece => ' ' :: withoutReturns piece

theorem physicalLines_fold {first : Text} {others : List Text} (hne : first ≠ [])
    (hbreak : '\n' ∉ first ++ others.flatten) :
    physicalLines (fold first others) = withoutReturns first :: continuations others := by
  have hfold : fold first others = Text.join ['\n'] (first :: others.map (' ' :: ·)) := by
    rw [fold, Text.join_cons, Text.join_cons, List.flatMap_map]
    rfl
  have hlines : Text.splitOn '\n' (fold first others) = first :: others.map (' ' :: ·) := by
    rw [hfold, Text.splitOn_join (by simp)]
    intro line hline hmem
    apply hbreak
    rcases List.mem_cons.1 hline with rfl | hline
    · exact List.mem_append_left _ hmem
    · obtain ⟨piece, hpiece, rfl⟩ := List.mem_map.1 hline
      have hinside : '\n' ∈ piece := by simpa using hmem
      exact List.mem_append_right _ (List.mem_flatten.2 ⟨piece, hpiece, hinside⟩)
  have hlast : (first :: others.map (' ' :: ·)).getLast? ≠ some [] := by
    intro hnil
    rcases List.mem_cons.1 (List.mem_of_getLast? hnil) with hfirst | hother
    · exact hne hfirst.symm
    · obtain ⟨piece, -, hpiece⟩ := List.mem_map.1 hother
      cases hpiece
  have hkept : ((first :: others.map (' ' :: ·)).getLast? == some []) = false := by
    simpa using hlast
  have hblank (piece : Text) : withoutReturns (' ' :: piece) = ' ' :: withoutReturns piece :=
    withoutReturns_cons (by decide) piece
  simp only [physicalLines, hlines, hkept, Bool.false_eq_true, if_false, List.map_cons,
    List.map_map, continuations]
  rw [List.cons_eq_cons]
  exact ⟨rfl, List.map_congr_left fun piece _ => hblank piece⟩

/-! ## Logical lines -/

/-- The logical lines that are left of those that were gathered. -/
def finished (lines : List LogicalLine) : List LogicalLine :=
  (lines.map fun l => { l with text := Text.trim l.text }).filter fun l => !l.text.isEmpty

theorem finished_cons_of_blank {l : LogicalLine} (h : Text.trim l.text = [])
    (lines : List LogicalLine) : finished (l :: lines) = finished lines := by
  simp [finished, h]

theorem finished_cons_of_solid {l : LogicalLine} (h : Text.trim l.text ≠ [])
    (lines : List LogicalLine) :
    finished (l :: lines) = { l with text := Text.trim l.text } :: finished lines := by
  simp [finished, h]

theorem finished_singleton_of_solid {l : LogicalLine} (h : Text.trim l.text ≠ []) :
    finished [l] = [{ l with text := Text.trim l.text }] :=
  finished_cons_of_solid h []

theorem finished_singleton_congr {s t : Text} (h : Text.trim s = Text.trim t) (number : Nat) :
    finished [⟨number, s⟩] = finished [⟨number, t⟩] := by
  simp only [finished, List.map_cons, h]

theorem exists_mem_of_mem_finished {lines : List LogicalLine} {l : LogicalLine}
    (h : l ∈ finished lines) : ∃ line ∈ lines, line.number = l.number := by
  obtain ⟨line, hline, rfl⟩ := List.mem_map.1 (List.mem_of_mem_filter h)
  exact ⟨line, hline, rfl⟩

theorem trim_eq_of_finished_eq {k l : LogicalLine} {lines : List LogicalLine}
    (hk : Text.trim k.text ≠ []) (hl : Text.trim l.text ≠ [])
    (h : finished (k :: lines) = finished [l]) : Text.trim k.text = Text.trim l.text := by
  rw [finished_cons_of_solid hk, finished_singleton_of_solid hl] at h
  injection h with hhead
  injection hhead

theorem isSkipped_cons {c : Char} (hc : Text.isBlank c = false) (hmark : c ≠ '#') (line : Text) :
    isSkipped (c :: line) = false := by
  rw [isSkipped, Text.trimStart_eq_self (by simpa using hc)]
  simpa using hmark

theorem isSkipped_withoutReturns (piece : Text) :
    isSkipped (' ' :: withoutReturns piece) = isSkipped piece := by
  obtain ⟨returns, hsplit, hblank⟩ := exists_withoutReturns_append piece
  have hstart : Text.trimStart (' ' :: withoutReturns piece) =
      Text.trimStart (withoutReturns piece) := rfl
  have hwhole := congrArg Text.trimStart hsplit
  rw [Text.trimStart_append, Text.trimStart_eq_nil_iff.2 hblank] at hwhole
  rw [isSkipped, isSkipped, hstart, hwhole]
  cases hfront : Text.trimStart (withoutReturns piece) with
  | nil => rfl
  | cons c rest => rfl

theorem isSkipped_of_isBlankText {piece : Text} (h : Text.isBlankText piece = true) :
    isSkipped piece = true := by
  rw [isSkipped, Text.trimStart_eq_nil_iff.2 h]

theorem gather_skipped {piece : Text} (h : isSkipped piece = true) (current : Option LogicalLine)
    (number : Nat) (pieces : List Text) :
    gather current number (continuations (piece :: pieces)) =
      current.toList ++ gather none (number + 1) (continuations pieces) := by
  rw [← isSkipped_withoutReturns] at h
  exact gather_of_step (.skipped h current) (continuations pieces)

theorem gather_joined {piece : Text} (h : isSkipped piece = false) (l : LogicalLine)
    (number : Nat) (pieces : List Text) :
    gather (some l) number (continuations (piece :: pieces)) =
      gather (some { l with text := l.text ++ withoutReturns piece }) (number + 1)
        (continuations pieces) := by
  rw [← isSkipped_withoutReturns] at h
  exact gather_of_step (.joined h rfl l) (continuations pieces)

theorem gather_blank {pieces : List Text} (h : pieces.all Text.isBlankText = true)
    (current : Option LogicalLine) (number : Nat) :
    gather current number (continuations pieces) = current.toList := by
  induction pieces generalizing current number with
  | nil => rfl
  | cons piece pieces ih =>
      rw [List.all_cons, Bool.and_eq_true] at h
      rw [gather_skipped (isSkipped_of_isBlankText h.1), ih h.2]
      exact List.append_nil _

/-- The line that is gathered goes on with some of what the pieces hold. -/
theorem exists_gather_some (pieces : List Text) (l : LogicalLine) (number : Nat) :
    ∃ more rest, gather (some l) number (continuations pieces) =
      { l with text := l.text ++ more } :: rest ∧ more.Sublist pieces.flatten := by
  induction pieces generalizing l number with
  | nil => exact ⟨[], [], by simp [gather, continuations], .slnil⟩
  | cons piece pieces ih =>
      cases hskipped : isSkipped piece with
      | true =>
          refine ⟨[], gather none (number + 1) (continuations pieces), ?_, List.nil_sublist _⟩
          rw [gather_skipped hskipped, List.append_nil]
          rfl
      | false =>
          obtain ⟨more, rest, hgather, hmore⟩ :=
            ih { l with text := l.text ++ withoutReturns piece } (number + 1)
          obtain ⟨returns, hsplit, -⟩ := exists_withoutReturns_append piece
          have hpiece : (withoutReturns piece).Sublist piece := by
            conv_rhs => rw [hsplit]
            exact List.sublist_append_left _ returns
          refine ⟨withoutReturns piece ++ more, rest, ?_, ?_⟩
          · rw [gather_joined hskipped, hgather, List.append_assoc]
          · rw [List.flatten_cons]
            exact hpiece.append hmore

/-- A piece with more of the name is taken for neither a comment nor a blank line. -/
theorem isSkipped_of_cut_name {front piece rest : Text} (hpiece : piece ≠ [])
    (hfront : hasName front = false) (h : hasName (front ++ (piece ++ rest)) = true) :
    isSkipped piece = false := by
  obtain ⟨name, hprefix, hname⟩ := hasName_iff.1 h
  have hlonger : ¬name <+: front := by
    intro hinside
    rw [hasName_iff.2 ⟨name, hinside, hname⟩] at hfront
    cases hfront
  rcases Text.prefix_append_cases hprefix with hinside | ⟨u, hu, rfl⟩
  · exact absurd hinside hlonger
  · cases piece with
    | nil => exact absurd rfl hpiece
    | cons c piece =>
        cases u with
        | nil =>
            rw [List.append_nil] at hlonger
            exact absurd List.prefix_rfl hlonger
        | cons d u =>
            obtain ⟨rfl, -⟩ := List.cons_prefix_cons.1 hu
            obtain ⟨hsolid, hmark⟩ := solid_of_mem_name hname (c := d) (by simp)
            exact isSkipped_cons hsolid hmark piece

theorem hasName_append_withoutReturns {front piece rest : Text}
    (h : hasName (front ++ (piece ++ rest)) = true) :
    hasName (front ++ withoutReturns piece ++ rest) = true := by
  obtain ⟨name, hprefix, hname⟩ := hasName_iff.1 h
  obtain ⟨returns, hsplit, hblank⟩ := exists_withoutReturns_append piece
  rw [hsplit, ← List.append_assoc, ← List.append_assoc] at hprefix
  have hsolid : ∀ c ∈ name, Text.isBlank c = false :=
    fun c hc => (solid_of_mem_name hname hc).1
  exact hasName_iff.2 ⟨name, Text.prefix_append_of_solid hsolid hblank hprefix, hname⟩

/-- A name that is cut comes together in the line that is gathered. -/
theorem exists_gather_some_of_hasName {pieces : List Text} (hne : [] ∉ pieces) {l : LogicalLine}
    (number : Nat) (h : hasName (l.text ++ pieces.flatten) = true) :
    ∃ line rest, gather (some l) number (continuations pieces) = line :: rest ∧
      hasName line.text = true := by
  induction pieces generalizing l number with
  | nil =>
      rw [List.flatten_nil, List.append_nil] at h
      exact ⟨l, [], rfl, h⟩
  | cons piece pieces ih =>
      rw [List.mem_cons, not_or] at hne
      cases hl : hasName l.text with
      | true =>
          obtain ⟨more, rest, hgather, -⟩ := exists_gather_some (piece :: pieces) l number
          exact ⟨_, rest, hgather, hasName_append hl more⟩
      | false =>
          rw [List.flatten_cons] at h
          rw [gather_joined (isSkipped_of_cut_name (Ne.symm hne.1) hl h)]
          exact ih hne.2 (l := ⟨l.number, _⟩) (number + 1) (hasName_append_withoutReturns h)

/-! ## What comes together -/

/--
What was joined and what stood in the pieces, white space at the front left
aside: the same if nothing was lost, else less by the white space at the end.
-/
inductive Joins : Bool → Text → Text → Prop where
  | kept {found whole : Text} (h : Text.trimStart found = Text.trimStart whole) :
      Joins true found whole
  | lost {found whole blanks : Text} (hsolid : Text.trimStart found ≠ []) (hne : blanks ≠ [])
      (hblank : Text.isBlankText blanks = true)
      (h : Text.trimStart whole = Text.trimStart found ++ blanks) : Joins false found whole

theorem Joins.trim_eq {kept : Bool} {found whole : Text} (h : Joins kept found whole) :
    Text.trim found = Text.trim whole := by
  cases h with
  | kept h => rw [Text.trim, Text.trim, h]
  | lost hsolid hne hblank h => rw [Text.trim, Text.trim, h, Text.trimEnd_append_blanks hblank]

/-- Nothing is lost of a further piece but carriage returns at its end. -/
theorem Joins.append {found whole piece : Text} (h : Joins true found whole)
    (hpiece : isSkipped piece = false) :
    Joins (piece.getLast? != some '\r') (found ++ withoutReturns piece) (whole ++ piece) := by
  have hstart : Text.trimStart found = Text.trimStart whole := by
    cases h with
    | kept h => exact h
  have hwhole : Text.trimStart (whole ++ piece) = Text.trimStart (found ++ piece) := by
    rw [Text.trimStart_append, Text.trimStart_append, hstart]
  by_cases hlast : piece.getLast? = some '\r'
  · obtain ⟨returns, hsplit, hblank⟩ := exists_withoutReturns_append piece
    have hreturns : returns ≠ [] := by
      intro hnil
      rw [hnil, List.append_nil] at hsplit
      exact getLast?_withoutReturns piece (hsplit ▸ hlast)
    have hsolid : Text.trimStart (found ++ withoutReturns piece) ≠ [] := by
      intro hnil
      rw [Text.trimStart_eq_nil_iff, Text.isBlankText_append, Bool.and_eq_true] at hnil
      have hskipped : isSkipped piece = true := by
        rw [← isSkipped_withoutReturns]
        exact isSkipped_of_isBlankText hnil.2
      rw [hpiece] at hskipped
      cases hskipped
    have hlost : (piece.getLast? != some '\r') = false := by simp [hlast]
    rw [hlost]
    refine .lost hsolid hreturns hblank ?_
    rw [hwhole]
    conv_lhs => rw [hsplit, ← List.append_assoc, Text.trimStart_append, if_neg hsolid]
  · have hkept : (piece.getLast? != some '\r') = true := by simp [hlast]
    rw [hkept, withoutReturns_of_getLast? hlast]
    exact .kept hwhole.symm

/--
Holds if pieces come together behind what was joined so far, of which the white
space at the end was kept or lost.  No text comes together with what is in front of
lost white space, nor with a piece that is taken for a comment or a blank line; if
all that is left is white space, then it is no part of the line at any rate.
-/
def rejoins (kept : Bool) : List Text → Bool
  | [] => true
  | piece :: pieces =>
      (piece :: pieces).all Text.isBlankText ||
        (kept && !isSkipped piece && rejoins (piece.getLast? != some '\r') pieces)

/-- Text that is shorter than the whole, blanks at the end aside, is not the whole. -/
theorem finished_ne_of_length_lt {found more whole rest : Text} {lines : List LogicalLine}
    (hfound : Text.trimStart found ≠ []) (hwhole : Text.trimStart whole ≠ [])
    (hrest : Text.isBlankText rest = false)
    (hlt : (Text.trimStart found).length + (Text.trimEnd more).length <
      (Text.trimStart whole).length + (Text.trimEnd rest).length) :
    finished (⟨1, found ++ more⟩ :: lines) ≠ finished [⟨1, whole ++ rest⟩] := by
  have hfirst : Text.trim (found ++ more) = Text.trimEnd (Text.trimStart found ++ more) := by
    rw [Text.trim, Text.trimStart_append, if_neg hfound]
  have hall : Text.trim (whole ++ rest) = Text.trimStart whole ++ Text.trimEnd rest := by
    rw [Text.trim, Text.trimStart_append, if_neg hwhole, Text.trimEnd_append_of_solid hrest]
  have hsolid : Text.trim (found ++ more) ≠ [] := by
    rw [← Text.isBlankText_eq_false_iff, Text.isBlankText_append, ← Bool.not_eq_true]
    rw [Bool.and_eq_true, ← Text.trimStart_eq_nil_iff]
    exact fun hnil => hfound hnil.1
  have hsolid' : Text.trim (whole ++ rest) ≠ [] := by
    rw [hall]
    exact fun hnil => hwhole (List.append_eq_nil_iff.1 hnil).1
  intro heq
  have hlength := congrArg List.length (trim_eq_of_finished_eq hsolid hsolid' heq)
  dsimp only at hlength
  rw [hfirst, hall, List.length_append] at hlength
  have hle := Text.length_trimEnd_append_le (Text.trimStart found) more
  omega

/-- What was lost in front of further text does not come back. -/
theorem finished_gather_ne_of_lost {found whole : Text} {pieces : List Text} (number : Nat)
    (h : Joins false found whole) (hrest : Text.isBlankText pieces.flatten = false) :
    finished (gather (some ⟨1, found⟩) number (continuations pieces)) ≠
      finished [⟨1, whole ++ pieces.flatten⟩] := by
  cases h with
  | @lost _ _ blanks hsolid hne hblank h =>
      obtain ⟨more, lines, hgather, hmore⟩ := exists_gather_some pieces ⟨1, found⟩ number
      have hwhole : Text.trimStart whole ≠ [] := by
        rw [h]
        exact fun hnil => hsolid (List.append_eq_nil_iff.1 hnil).1
      have hblanks : 0 < blanks.length := List.length_pos_iff.2 hne
      have hle := (Text.trimEnd_sublist_trimEnd hmore).length_le
      rw [hgather]
      apply finished_ne_of_length_lt hsolid hwhole hrest
      rw [h, List.length_append]
      omega

/-- Nor does what stands in a piece that ends the line. -/
theorem finished_gather_ne_of_skipped {found whole piece : Text} {pieces : List Text}
    {number : Nat} (hnumber : 1 < number) (h : Joins true found whole)
    (hpiece : isSkipped piece = true)
    (hrest : Text.isBlankText (piece :: pieces).flatten = false) :
    finished (gather (some ⟨1, found⟩) number (continuations (piece :: pieces))) ≠
      finished [⟨1, whole ++ (piece :: pieces).flatten⟩] := by
  cases h with
  | kept h =>
      rw [gather_skipped hpiece]
      by_cases hfound : Text.trimStart found = []
      · -- What comes is numbered from behind the first line on.
        have hblank : Text.trim found = [] :=
          Text.isBlankText_iff.1 (Text.trimStart_eq_nil_iff.1 hfound)
        have hsolid : Text.trim (whole ++ (piece :: pieces).flatten) ≠ [] := by
          rw [← Text.isBlankText_eq_false_iff, Text.isBlankText_append, hrest, Bool.and_false]
        intro heq
        rw [Option.toList_some, List.singleton_append, finished_cons_of_blank hblank,
          finished_singleton_of_solid hsolid] at heq
        obtain ⟨line, hline, hone⟩ :=
          exists_mem_of_mem_finished (heq ▸ List.mem_singleton_self _)
        have hlate := le_number_of_mem_gather (number + 1) (continuations pieces) none
          (number + 1) (by simp) le_rfl line hline
        dsimp only at hone
        omega
      · have hpos : 0 < (Text.trimEnd (piece :: pieces).flatten).length :=
          List.length_pos_iff.2 (Text.trimEnd_ne_nil hrest)
        rw [Option.toList_some, List.singleton_append]
        conv_lhs => rw [← List.append_nil found]
        apply finished_ne_of_length_lt hfound (h ▸ hfound) hrest
        rw [h]
        exact Nat.add_lt_add_left hpos _

theorem finished_gather_eq_iff {pieces : List Text} {kept : Bool} {found whole : Text}
    {number : Nat} (hnumber : 1 < number) (h : Joins kept found whole) :
    finished (gather (some ⟨1, found⟩) number (continuations pieces)) =
        finished [⟨1, whole ++ pieces.flatten⟩] ↔
      rejoins kept pieces = true := by
  induction pieces generalizing kept found whole number with
  | nil =>
      simp only [rejoins, iff_true, List.flatten_nil, List.append_nil]
      exact finished_singleton_congr h.trim_eq 1
  | cons piece pieces ih =>
      rw [rejoins]
      cases hall : (piece :: pieces).all Text.isBlankText with
      | true =>
          have hblank : Text.isBlankText (piece :: pieces).flatten = true := by
            rw [Text.isBlankText_flatten, hall]
          simp only [Bool.true_or, iff_true]
          rw [gather_blank hall]
          exact finished_singleton_congr (h.trim_eq.trans (Text.trim_append_blanks hblank _).symm) 1
      | false =>
          have hrest : Text.isBlankText (piece :: pieces).flatten = false := by
            rw [Text.isBlankText_flatten, hall]
          rw [Bool.false_or]
          cases kept with
          | false => simpa using finished_gather_ne_of_lost number h hrest
          | true =>
              cases hpiece : isSkipped piece with
              | true => simpa using finished_gather_ne_of_skipped hnumber h hpiece hrest
              | false =>
                  rw [gather_joined hpiece, List.flatten_cons, ← List.append_assoc]
                  simpa using ih (Nat.lt_add_right 1 hnumber) (h.append hpiece)

/-! ## Lines that open a logical one -/

def keepsEnd (line : Text) : Bool :=
  Text.trim (body line) == Text.trimStart (body line)

theorem joins_trim_body (line : Text) :
    Joins (keepsEnd line) (Text.trim (body line)) (body line) := by
  have hstart : Text.trimStart (Text.trim (body line)) = Text.trim (body line) :=
    Text.trimStart_eq_self (Text.isTrimmed_trim _).1
  cases hkept : keepsEnd line with
  | true =>
      rw [keepsEnd, beq_iff_eq] at hkept
      exact .kept (hstart.trans hkept)
  | false =>
      rw [keepsEnd, beq_eq_false_iff_ne] at hkept
      obtain ⟨blanks, hsplit, hblank⟩ := Text.exists_trimEnd_append (Text.trimStart (body line))
      have hsolid : Text.trim (body line) ≠ [] := by
        intro hnil
        apply hkept
        rw [hnil, Text.trimStart_eq_nil_iff.2 (Text.isBlankText_iff.2 hnil)]
      have hne : blanks ≠ [] := by
        intro hnil
        rw [hnil, List.append_nil] at hsplit
        exact hkept hsplit.symm
      exact .lost (hstart.symm ▸ hsolid) hne (Text.isBlankText_iff_forall.2 hblank)
        (hstart.symm ▸ hsplit)

theorem body_append {front rest : Text} (h : hasName front = hasName (front ++ rest)) :
    body (front ++ rest) = body front ++ rest := by
  cases hfront : hasName front with
  | true =>
      obtain ⟨behind, hstrip⟩ := Option.isSome_iff_exists.1 hfront
      rw [body, body, hstrip, Text.stripFold?_append_of_eq_some hstrip]
      rfl
  | false => rw [body_of_not_hasName hfront, body_of_not_hasName (h ▸ hfront)]

theorem logicalLines_eq_of_fold {first : Text} {others : List Text} (hne : first ≠ [])
    (hstart : ∀ c ∈ first.head?, Text.isBlank c = false ∧ c ≠ '#')
    (hbreak : '\n' ∉ first ++ others.flatten) :
    logicalLines (fold first others) =
      finished (gather (some ⟨1, opening first⟩) 2 (continuations others)) := by
  cases first with
  | nil => exact absurd rfl hne
  | cons c front =>
      obtain ⟨hc, hmark⟩ := hstart c rfl
      have hreturn : c ≠ '\r' := fun h => by rw [h] at hc; cases hc
      have hspace : c ≠ ' ' := fun h => by rw [h] at hc; cases hc
      have hopening : opening (c :: withoutReturns front) = opening (c :: front) := by
        obtain ⟨returns, hsplit, hblank⟩ := exists_withoutReturns_append front
        rw [opening, opening]
        conv_rhs => rw [hsplit, ← List.cons_append, Text.trim_append_blanks hblank]
      rw [logicalLines, physicalLines_fold hne hbreak, withoutReturns_cons hreturn, gather,
        isSkipped_cons hc hmark, hopening]
      · rfl
      · exact fun more _ h _ => hspace (List.cons.inj h).1

/-- A line by itself is one logical line. -/
theorem logicalLines_eq {line : Text} (hne : line ≠ [])
    (hstart : ∀ c ∈ line.head?, Text.isBlank c = false ∧ c ≠ '#') (hbreak : '\n' ∉ line) :
    logicalLines line = finished [⟨1, opening line⟩] := by
  have hfold : logicalLines (fold line []) = finished (gather (some ⟨1, opening line⟩) 2 []) :=
    logicalLines_eq_of_fold hne hstart (by simpa using hbreak)
  rwa [fold, Text.join_singleton] at hfold

/-- A name that is cut is not seen, so it stays in front of the instruction. -/
theorem finished_gather_ne_of_cut_name {line first : Text} {others : List Text} (number : Nat)
    (hwhole : first ++ others.flatten = line) (hne : [] ∉ others)
    (hstart : ∀ c ∈ line.head?, Text.isBlank c = false) (hfirst : hasName first = false)
    (hline : hasName line = true) (hagain : hasName (opening line) = false) :
    finished (gather (some ⟨1, opening first⟩) number (continuations others)) ≠
      finished [⟨1, opening line⟩] := by
  have htrimmed : Text.trim (opening line) = opening line := by
    rw [opening_eq hstart, Text.trim_trim]
  have hopening : opening first = first := by
    have htrimmed : first.IsTrimmed :=
      Text.isTrimmed_of_forall (solid_of_cut_name hfirst (hwhole ▸ hline))
    rw [opening_eq htrimmed.1, body_of_not_hasName hfirst, Text.trim_eq_self htrimmed]
  have hfold : hasName (opening first ++ others.flatten) = true := by
    rw [hopening, hwhole, hline]
  obtain ⟨joined, rest, hgather, hjoined⟩ :=
    exists_gather_some_of_hasName (l := ⟨1, opening first⟩) hne number hfold
  have hname := hasName_trim hjoined
  have hsolid : Text.trim joined.text ≠ [] := by
    intro hnil
    rw [hnil] at hname
    cases hname
  intro heq
  rw [hgather] at heq
  by_cases hblank : opening line = []
  · rw [finished_cons_of_solid hsolid, finished_cons_of_blank (htrimmed.trans hblank)] at heq
    cases heq
  · have htext := trim_eq_of_finished_eq hsolid (htrimmed.symm ▸ hblank) heq
    rw [htext, htrimmed, hagain] at hname
    cases hname

/--
The pieces of a line come together as the line exactly if `rejoins` holds, as long
as the first piece shows whether the line has the name.  A name that is cut stays in
front of the instruction.
-/
theorem logicalLines_fold {line first : Text} {others : List Text}
    (hline : (first :: others).flatten = line) (hne : [] ∉ first :: others)
    (hstart : ∀ c ∈ line.head?, Text.isBlank c = false ∧ c ≠ '#') (hbreak : '\n' ∉ line) :
    (opening line ≠ [] → logicalLines line = [⟨1, opening line⟩]) ∧
      (hasName first = hasName line →
        (logicalLines (fold first others) = logicalLines line ↔
          rejoins (keepsEnd first) others = true)) ∧
      (hasName first ≠ hasName line → hasName (opening line) = false →
        logicalLines (fold first others) ≠ logicalLines line) := by
  rw [List.flatten_cons] at hline
  subst hline
  rw [List.mem_cons, not_or] at hne
  obtain ⟨hfirst, hothers⟩ := hne
  have hhead : (first ++ others.flatten).head? = first.head? := by
    cases first with
    | nil => exact absurd rfl hfirst
    | cons c front => rfl
  have hsolid : first ++ others.flatten ≠ [] :=
    fun hnil => hfirst (List.append_eq_nil_iff.1 hnil).1.symm
  have hblank : ∀ c ∈ (first ++ others.flatten).head?, Text.isBlank c = false :=
    fun c hc => (hstart c hc).1
  rw [logicalLines_eq hsolid hstart hbreak,
    logicalLines_eq_of_fold (Ne.symm hfirst) (hhead ▸ hstart) hbreak]
  refine ⟨fun hopening => ?_, fun hname => ?_, fun hname hagain => ?_⟩
  · have htrim : Text.trim (opening (first ++ others.flatten)) =
        opening (first ++ others.flatten) := by
      rw [opening_eq hblank, Text.trim_trim]
    rw [finished_singleton_of_solid (htrim.symm ▸ hopening), htrim]
  · have hfirstOpening : opening first = Text.trim (body first) := opening_eq (hhead ▸ hblank)
    have htrim : finished [⟨1, opening (first ++ others.flatten)⟩] =
        finished [⟨1, body first ++ others.flatten⟩] := by
      rw [opening_eq hblank, body_append hname]
      exact finished_singleton_congr (Text.trim_trim _) 1
    rw [htrim, hfirstOpening]
    exact finished_gather_eq_iff (by decide) (joins_trim_body first)
  · have hcut : hasName first = false ∧ hasName (first ++ others.flatten) = true := by
      cases hshown : hasName first with
      | true => exact absurd (hshown.trans (hasName_append hshown _).symm) hname
      | false => exact ⟨rfl, by simpa [hshown] using hname⟩
    exact finished_gather_ne_of_cut_name 2 rfl hothers hblank hcut.1 hcut.2 hagain

/-- An instruction up to a blank in its label. -/
def labelFront : Text :=
  "(version 3.0; acl \"a ".toList

def labelRest : Text :=
  "b\"; allow(read) userdn = \"ldap:///self\";)".toList

/-- The instruction behind the name of the attribute. -/
def namedRest : Text :=
  "ci: (version 3.0; acl \"a b\"; allow(read) userdn = \"ldap:///self\";)".toList

theorem logicalLines_fold_of_labelFront :
    (logicalLines (labelFront ++ labelRest) = [⟨1, opening (labelFront ++ labelRest)⟩] ∧
        (logicalLines (fold labelFront [labelRest]) = logicalLines (labelFront ++ labelRest) ↔
          rejoins (keepsEnd labelFront) [labelRest] = true)) ∧
      logicalLines (fold ['a'] [namedRest]) ≠ logicalLines ('a' :: namedRest) := by
  have hlabel : ∀ c ∈ (labelFront ++ labelRest).head?, Text.isBlank c = false ∧ c ≠ '#' := by
    rintro c ⟨⟩
    decide
  have hnamed : ∀ c ∈ ('a' :: namedRest).head?, Text.isBlank c = false ∧ c ≠ '#' := by
    rintro c ⟨⟩
    decide
  obtain ⟨hone, hjoined, -⟩ := @logicalLines_fold (labelFront ++ labelRest) labelFront [labelRest]
    rfl (by decide) hlabel (by decide)
  obtain ⟨-, -, hcut⟩ := @logicalLines_fold ('a' :: namedRest) ['a'] [namedRest]
    rfl (by decide) hnamed (by decide)
  exact ⟨⟨hone (by decide), hjoined (by decide)⟩, hcut (by decide) (by decide)⟩

/-- The blank in front of the cut is taken for white space at the end of the line. -/
theorem labelFront_loses_its_blank :
    '\n' ∉ labelFront ++ labelRest ∧
      logicalLines (labelFront ++ labelRest) =
        [⟨1, "(version 3.0; acl \"a b\"; allow(read) userdn = \"ldap:///self\";)".toList⟩] ∧
      logicalLines (fold labelFront [labelRest]) =
        [⟨1, "(version 3.0; acl \"ab\"; allow(read) userdn = \"ldap:///self\";)".toList⟩] ∧
      logicalLines (fold labelFront [labelRest]) ≠ logicalLines (labelFront ++ labelRest) := by
  decide

end Listing

end DirectoryAccess
