import DirectoryAccess.Proofs.Listing
import DirectoryAccess.Proofs.Text.Line

/-!
# One text to a line

A logical line holds no line feed, however many physical lines it is gathered
from.  The other way round, texts that each stand on a line of their own are the
logical lines again if none of them is blank, is a comment, goes on with the line
above it, or loses its name or white space.
-/

namespace DirectoryAccess

namespace Listing

open Text (IsLine)

theorem isLine_of_mem_physicalLines {content line : Text} (h : line ∈ physicalLines content) :
    IsLine line := by
  obtain ⟨part, hpart, rfl⟩ := List.mem_map.1 h
  have hsplit : part ∈ Text.splitOn '\n' content := by
    split at hpart
    · exact List.dropLast_subset _ hpart
    · exact hpart
  have hline : IsLine part := Text.not_mem_of_mem_splitOn hsplit
  obtain ⟨returns, hwhole, -⟩ := exists_withoutReturns_append part
  rw [hwhole, Text.isLine_append_iff] at hline
  exact hline.1

theorem isLine_opening {line : Text} (h : IsLine line) : IsLine (opening line) := by
  rw [opening, withoutAttributeName]
  split
  · rename_i rest hstrip
    exact (h.trim.stripFold? hstrip).trimStart
  · exact h.trim

/-- Lines without a line feed are gathered into lines without one. -/
theorem isLine_of_mem_gather {lines : List Text} (hlines : ∀ line ∈ lines, IsLine line)
    (current : Option LogicalLine) (number : Nat)
    (hcurrent : ∀ l ∈ current.toList, IsLine l.text) :
    ∀ l ∈ gather current number lines, IsLine l.text := by
  refine forall_mem_gather (fun k line hk _ => ?_) (fun l more hmem hl => ?_)
    (by simpa using hcurrent)
  · exact isLine_opening (hlines line (List.mem_of_getElem? hk))
  · have hmore : IsLine (' ' :: more) := hlines _ hmem
    exact Text.isLine_append_iff.2 ⟨hl, (Text.isLine_cons_iff.1 hmore).2⟩

theorem isLine_of_mem_logicalLines {content : Text} {l : LogicalLine}
    (h : l ∈ logicalLines content) : IsLine l.text := by
  obtain ⟨found, hfound, rfl⟩ := List.mem_map.1 (List.mem_of_mem_filter h)
  have hline : IsLine found.text :=
    isLine_of_mem_gather (fun _ hline => isLine_of_mem_physicalLines hline) none 1 (by simp)
      found hfound
  exact hline.trim

/-- A text that a listing leaves alone: it opens a logical line and loses nothing. -/
structure StandsAlone (t : Text) : Prop where
  isLine : IsLine t
  isTrimmed : t.IsTrimmed
  first : ∃ c rest, t = c :: rest ∧ c ≠ '#'
  unnamed : hasName t = false

namespace StandsAlone

variable {t : Text} (h : StandsAlone t)

include h

theorem ne_nil : t ≠ [] := by
  obtain ⟨c, rest, rfl, -⟩ := h.first
  exact List.cons_ne_nil c rest

theorem withoutReturns_eq : withoutReturns t = t := by
  refine withoutReturns_of_getLast? fun hlast => ?_
  have hblank := h.isTrimmed.2 '\r' hlast
  revert hblank
  decide

theorem isSkipped_eq : isSkipped t = false := by
  obtain ⟨c, rest, rfl, hmark⟩ := h.first
  exact isSkipped_cons (h.isTrimmed.1 c rfl) hmark rest

theorem opening_eq_self : opening t = t := by
  rw [opening_eq h.isTrimmed.1, body_of_not_hasName h.unnamed, Text.trim_eq_self h.isTrimmed]

theorem head?_ne_blank : t.head? ≠ some ' ' := by
  intro hhead
  have hblank := h.isTrimmed.1 ' ' hhead
  revert hblank
  decide

/-- It ends the line above it and opens a line of its own. -/
theorem gather_cons (current : Option LogicalLine) (number : Nat) (lines : List Text) :
    gather current number (t :: lines) =
      current.toList ++ gather (some ⟨number, t⟩) (number + 1) lines := by
  have hstep : Step number t current current.toList (some ⟨number, opening t⟩) :=
    .opened h.isSkipped_eq (Or.inl h.head?_ne_blank)
  rw [gather_of_step hstep, h.opening_eq_self]

end StandsAlone

variable {texts : List Text}

theorem finished_eq_self {lines : List LogicalLine}
    (h : ∀ l ∈ lines, l.text.IsTrimmed ∧ l.text ≠ []) : finished lines = lines := by
  induction lines with
  | nil => rfl
  | cons l lines ih =>
      obtain ⟨htrimmed, hne⟩ := h l (by simp)
      have htrim : Text.trim l.text = l.text := Text.trim_eq_self htrimmed
      rw [finished_cons_of_solid (htrim.symm ▸ hne), htrim,
        ih fun k hk => h k (List.mem_cons_of_mem l hk)]

theorem splitOn_flatMap_concat {d : Char} (h : ∀ t ∈ texts, d ∉ t) :
    Text.splitOn d (texts.flatMap fun t => t ++ [d]) = texts ++ [[]] := by
  induction texts with
  | nil => rfl
  | cons t texts ih =>
      rw [List.flatMap_cons, List.append_assoc, List.singleton_append,
        Text.splitOn_append_cons (h t (by simp)), ih fun u hu => h u (List.mem_cons_of_mem t hu)]
      rfl

theorem physicalLines_flatMap_concat (h : ∀ t ∈ texts, StandsAlone t) :
    physicalLines (texts.flatMap fun t => t ++ ['\n']) = texts := by
  have hsplit := splitOn_flatMap_concat fun t ht => (h t ht).isLine
  simp only [physicalLines, hsplit, List.getLast?_concat, List.dropLast_concat, beq_self_eq_true,
    if_true]
  calc texts.map withoutReturns
      = texts.map id := List.map_congr_left fun t ht => (h t ht).withoutReturns_eq
    _ = texts := List.map_id texts

/-- Each text becomes a logical line, behind the line that was open. -/
theorem gather_of_standsAlone (h : ∀ t ∈ texts, StandsAlone t) (current : Option LogicalLine)
    (number : Nat) :
    gather current number texts =
      current.toList ++ texts.mapIdx fun k t => ⟨number + k, t⟩ := by
  induction texts generalizing current number with
  | nil => simp [gather]
  | cons t texts ih =>
      have hrest : ∀ u ∈ texts, StandsAlone u := fun u hu => h u (List.mem_cons_of_mem t hu)
      rw [(h t (by simp)).gather_cons, ih hrest, List.mapIdx_cons]
      simp [Nat.add_comm, Nat.add_left_comm]

/-- Texts that stand alone are the logical lines of the listing that has one on each line. -/
theorem logicalLines_flatMap_concat (h : ∀ t ∈ texts, StandsAlone t) :
    logicalLines (texts.flatMap fun t => t ++ ['\n']) =
      texts.mapIdx fun k t => ⟨k + 1, t⟩ := by
  have hgather : gather none 1 texts = texts.mapIdx fun k t => ⟨k + 1, t⟩ := by
    rw [gather_of_standsAlone h]
    simp [Nat.add_comm]
  have hwhole : ∀ l ∈ texts.mapIdx fun k t => (⟨k + 1, t⟩ : LogicalLine), StandsAlone l.text := by
    intro l hl
    obtain ⟨k, hk, rfl⟩ := List.mem_mapIdx.1 hl
    exact h texts[k] (List.getElem_mem hk)
  have hkept : finished (texts.mapIdx fun k t => ⟨k + 1, t⟩) = texts.mapIdx fun k t => ⟨k + 1, t⟩ :=
    finished_eq_self fun l hl => ⟨(hwhole l hl).isTrimmed, (hwhole l hl).ne_nil⟩
  rw [logicalLines, physicalLines_flatMap_concat h, hgather]
  exact hkept

end Listing

end DirectoryAccess
