import DirectoryAccess.Proofs.Listing

/-!
# Listings put together

An empty line between two listings parts them: the logical lines of the whole are those of
the first, and behind them those of the second under numbers that go on.  In any listing
each logical line has the number of the physical line that it starts with.
-/

namespace DirectoryAccess

namespace Listing

/-- What stands between the line feeds of a content, without carriage returns at the ends. -/
def rawLines (content : Text) : List Text :=
  (Text.splitOn '\n' content).map withoutReturns

/-- An empty line at the end is as good as none. -/
theorem gather_append_nil (lines : List Text) (current : Option LogicalLine) (number : Nat) :
    gather current number (lines ++ [[]]) = gather current number lines := by
  rw [gather_append_skipped rfl]
  exact List.append_nil _

theorem rawLines_eq (content : Text) :
    rawLines content = physicalLines content ∨ rawLines content = physicalLines content ++ [[]] := by
  cases hlast : (Text.splitOn '\n' content).getLast? == some [] with
  | true =>
      right
      have hsplit := List.dropLast_append_getLast? [] (beq_iff_eq.1 hlast)
      simp only [physicalLines, hlast, if_true]
      rw [rawLines, ← hsplit, List.map_append, List.dropLast_concat]
      rfl
  | false =>
      left
      simp only [physicalLines, hlast, Bool.false_eq_true, if_false]
      rfl

theorem logicalLines_eq_finished (content : Text) :
    logicalLines content = finished (gather none 1 (rawLines content)) := by
  have hlines : gather none 1 (rawLines content) = gather none 1 (physicalLines content) := by
    rcases rawLines_eq content with h | h
    · rw [h]
    · rw [h, gather_append_nil]
  rw [hlines]
  rfl

theorem rawLines_append (a b : Text) :
    rawLines (a ++ '\n' :: '\n' :: b) = rawLines a ++ [] :: rawLines b := by
  have hblank : Text.splitOn '\n' ('\n' :: b) = [] :: Text.splitOn '\n' b :=
    Text.splitOn_append_cons List.not_mem_nil b
  rw [rawLines, Text.splitOn_append, hblank, List.map_append, List.map_cons]
  rfl

theorem length_rawLines (content : Text) : (rawLines content).length = content.count '\n' + 1 := by
  rw [rawLines, List.length_map, Text.length_splitOn]

theorem finished_append (ls ks : List LogicalLine) :
    finished (ls ++ ks) = finished ls ++ finished ks := by
  rw [finished, List.map_append, List.filter_append]
  rfl

theorem finished_map_later (k : Nat) (ls : List LogicalLine) :
    finished (ls.map (later k)) = (finished ls).map (later k) := by
  rw [finished, finished, List.map_map, List.filter_map, List.filter_map, List.map_map]
  rfl

theorem logicalLines_append (a b : Text) :
    logicalLines (a ++ '\n' :: '\n' :: b) =
      logicalLines a ++ (logicalLines b).map (later (a.count '\n' + 2)) := by
  have hbelow : gather none (1 + (rawLines a).length + 1) (rawLines b) =
      (gather none 1 (rawLines b)).map (later (a.count '\n' + 2)) := by
    rw [← gather_later, length_rawLines, Nat.add_assoc]
    rfl
  rw [logicalLines_eq_finished, rawLines_append, gather_append_skipped rfl, finished_append, hbelow,
    finished_map_later, ← logicalLines_eq_finished, ← logicalLines_eq_finished]

theorem isSkipped_eq_false_iff {line : Text} :
    isSkipped line = false ↔
      Text.isBlankText line = false ∧ (Text.trimStart line).head? ≠ some '#' := by
  rw [← Bool.not_eq_true (Text.isBlankText line), ← Text.trimStart_eq_nil_iff, isSkipped]
  cases Text.trimStart line <;> simp

/-- The physical line of that number, from 1, neither is blank nor is it a comment. -/
structure IsSolidLine (content : Text) (number : Nat) (line : Text) : Prop where
  exists_getElem? : ∃ k, number = k + 1 ∧ (Text.splitOn '\n' content)[k]? = some line
  isBlankText_eq : Text.isBlankText line = false
  head?_ne : (Text.trimStart line).head? ≠ some '#'

theorem opening_withoutReturns (line : Text) : opening (withoutReturns line) = opening line := by
  obtain ⟨returns, hsplit, hblank⟩ := exists_withoutReturns_append line
  have htrim := Text.trim_append_blanks hblank (withoutReturns line)
  rw [← hsplit] at htrim
  rw [opening, opening, htrim]

theorem exists_isSolidLine_of_mem_gather {content : Text} :
    ∀ l ∈ gather none 1 (rawLines content),
      ∃ line, IsSolidLine content l.number line ∧ opening line <+: l.text := by
  refine forall_mem_gather (fun k line hk hline => ?_) ?_ (by simp)
  · rw [rawLines, List.getElem?_map] at hk
    obtain ⟨whole, hwhole, rfl⟩ := Option.map_eq_some_iff.1 hk
    have hskipped : isSkipped whole = false := by
      rw [← isSkipped_withoutReturns]
      exact hline
    obtain ⟨hblank, hcomment⟩ := isSkipped_eq_false_iff.1 hskipped
    refine ⟨whole, ⟨⟨k, Nat.add_comm 1 k, hwhole⟩, hblank, hcomment⟩, ?_⟩
    exact ⟨[], by rw [opening_withoutReturns, List.append_nil]⟩
  · rintro l more - ⟨line, hsolid, hopening⟩
    exact ⟨line, hsolid, hopening.trans (List.prefix_append l.text more)⟩

theorem pairwise_finished {ls : List LogicalLine}
    (h : ls.Pairwise fun k l => k.number < l.number) :
    (finished ls).Pairwise fun k l => k.number < l.number := by
  refine List.Pairwise.filter _ ?_
  rw [List.pairwise_map]
  exact h

theorem text_of_mem_finished {ls : List LogicalLine} {l : LogicalLine} (h : l ∈ finished ls) :
    l.text.IsTrimmed ∧ l.text ≠ [] := by
  obtain ⟨hmem, hne⟩ := List.mem_filter.1 h
  obtain ⟨found, -, rfl⟩ := List.mem_map.1 hmem
  exact ⟨Text.isTrimmed_trim found.text, by simpa using hne⟩

/--
An empty line parts a listing in two, whose lines are numbered one behind the other.  Numbers
grow, and each is that of a physical line with which the logical line starts and that is neither
blank nor a comment.
-/
theorem logicalLines_number_physical_lines :
    (∀ a b : Text, logicalLines (a ++ '\n' :: '\n' :: b) =
      logicalLines a ++ (logicalLines b).map fun l =>
        { l with number := l.number + (a.count '\n' + 2) }) ∧
    ∀ content : Text,
      (logicalLines content).Pairwise (fun k l => k.number < l.number) ∧
      ∀ l ∈ logicalLines content,
        (∃ line more, IsSolidLine content l.number line ∧
          l.text = Text.trim (opening line ++ more)) ∧
        l.text.IsTrimmed ∧ l.text ≠ [] := by
  refine ⟨logicalLines_append, fun content => ?_⟩
  rw [logicalLines_eq_finished]
  refine ⟨pairwise_finished (pairwise_gather (by simp)), fun l hl => ⟨?_, text_of_mem_finished hl⟩⟩
  obtain ⟨found, hfound, rfl⟩ := List.mem_map.1 (List.mem_of_mem_filter hl)
  obtain ⟨line, hsolid, more, hmore⟩ := exists_isSolidLine_of_mem_gather found hfound
  exact ⟨line, more, hsolid, by rw [hmore]⟩

/-- An instruction that is folded, between a comment and a line of white space, then another. -/
def foldedListing : Text :=
  "# a\r\naci: (b\r\n c)\r\n \t\n d".toList

theorem logicalLines_number_physical_lines_of_foldedListing :
    logicalLines foldedListing = [⟨2, "(bc)".toList⟩, ⟨5, "d".toList⟩] ∧
      (∃ line more, IsSolidLine foldedListing 2 line ∧
        "(bc)".toList = Text.trim (opening line ++ more)) ∧
      Text.IsTrimmed "(bc)".toList ∧ "(bc)".toList ≠ [] := by
  have hlines : logicalLines foldedListing = [⟨2, "(bc)".toList⟩, ⟨5, "d".toList⟩] := by
    decide +kernel
  refine ⟨hlines, ?_⟩
  exact (logicalLines_number_physical_lines.2 foldedListing).2 ⟨2, "(bc)".toList⟩ (by simp [hlines])

end Listing

end DirectoryAccess
