import DirectoryAccess.Proofs.Instruction.Citation
import DirectoryAccess.Proofs.Listing.Lines
import DirectoryAccess.Proofs.Report.Readings

/-!
# Status lines

The report on verdicts tells the status of each logical line on one line, and
what there is to say about it on lines below that start with four blanks.  No
label and no message holds a line feed, so that the lines which start otherwise
are the status lines.
-/

namespace DirectoryAccess

namespace Report

open Text (IsLine)

def status (limit : Nat) (coloured : Bool) (l : LogicalLine) : Text :=
  match Instruction.parseWith limit l.text with
  | .error _ => Text.ofNat l.number ++ ": ".toList ++ fail coloured
  | .ok i =>
      Text.ofNat l.number ++ ": acl ".toList ++ Text.quote i.label ++
        ' ' :: if i.check.toOption.isSome then pass coloured else fail coloured

/-- Holds for the lines that belong to the one above them. -/
def isDetail (line : Text) : Bool :=
  "    ".toList.isPrefixOf line

/-- The lines of an output that stand for themselves. -/
def statusLines (output : Text) : List Text :=
  (Text.splitOn '\n' output).dropLast.filter fun line => !isDetail line

theorem isLine_pass (coloured : Bool) : IsLine (pass coloured) := by
  cases coloured <;> decide

theorem isLine_fail (coloured : Bool) : IsLine (fail coloured) := by
  cases coloured <;> decide

variable {limit : Nat} {coloured showCanonical : Bool} {l : LogicalLine} {content : Text}

theorem isLine_status (hl : IsLine l.text) : IsLine (status limit coloured l) := by
  have hnumber := Text.isLine_ofNat l.number
  unfold status
  split
  · simpa [hnumber] using isLine_fail coloured
  · rename_i i hread
    obtain ⟨-, hlabel, -⟩ := Instruction.isLine_parts_of_parseWith hread hl
    split <;> simp [hnumber, hlabel, isLine_pass, isLine_fail]

/-- The number of the line stands in front of its status. -/
theorem isDetail_status : isDetail (status limit coloured l) = false := by
  obtain ⟨c, digits, hdigits⟩ := List.exists_cons_of_ne_nil (Text.ofNat_ne_nil l.number)
  have hdigit : c.isDigit = true := Text.isDigit_of_mem_ofNat (n := l.number) (by simp [hdigits])
  have hne : (' ' == c) = false := by
    rw [beq_eq_false_iff_ne]
    rintro rfl
    cases hdigit
  unfold status
  split <;> simp [isDetail, hdigits, List.isPrefixOf, hne]

/-- The lines below the status of a line that was read. -/
def Below (details : List Text) : Prop :=
  ∀ d ∈ details, IsLine d ∧ isDetail d = true

theorem below_detail {t : Text} (ht : IsLine t) : Below ["    ".toList ++ t] := by
  intro d hd
  rw [List.mem_singleton.1 hd]
  exact ⟨by simpa using ht, by simp [isDetail, List.isPrefixOf]⟩

/-- What is reported on a line is its status and details below it. -/
theorem exists_verdict_eq (hl : IsLine l.text) :
    ∃ details, Below details ∧
      verdict coloured showCanonical (LineReading.ofLine limit l) =
        (status limit coloured l :: details).flatMap fun line => line ++ ['\n'] := by
  have hresult : (LineReading.ofLine limit l).parsed.result = Instruction.parseWith limit l.text :=
    rfl
  unfold verdict status
  dsimp only
  rw [hresult]
  cases hread : Instruction.parseWith limit l.text with
  | error e =>
      have hmessage := Instruction.isLine_message_of_parseWith hread hl
      exact ⟨_, below_detail hmessage, by simp [LineReading.ofLine, detail]⟩
  | ok i =>
      dsimp only
      cases hcheck : i.check with
      | error e =>
          have hmessage := Instruction.isLine_message_of_check hread hcheck
          refine ⟨_, below_detail hmessage, ?_⟩
          simp [LineReading.ofLine, labelled, detail, Except.toOption]
      | ok u =>
          cases showCanonical with
          | true =>
              refine ⟨_, below_detail (Instruction.isLine_text_of_parseWith hread hl), ?_⟩
              simp [LineReading.ofLine, labelled, detail, Except.toOption]
          | false =>
              refine ⟨[], by simp [Below], ?_⟩
              simp [LineReading.ofLine, labelled, Except.toOption]

/-- The lines of a report are the statuses in order, with details between them. -/
theorem exists_lines_eq {lines : List LogicalLine} (hlines : ∀ l ∈ lines, IsLine l.text) :
    ∃ written : List Text, (∀ w ∈ written, IsLine w) ∧
      (lines.map (LineReading.ofLine limit)).flatMap (verdict coloured showCanonical) =
        written.flatMap (fun line => line ++ ['\n']) ∧
      written.filter (fun line => !isDetail line) = lines.map (status limit coloured) := by
  induction lines with
  | nil => exact ⟨[], by simp, rfl, rfl⟩
  | cons l lines ih =>
      have hl : IsLine l.text := hlines l (by simp)
      obtain ⟨written, hwritten, hflat, hstatus⟩ :=
        ih fun k hk => hlines k (List.mem_cons_of_mem l hk)
      obtain ⟨details, hdetails, hverdict⟩ :=
        @exists_verdict_eq limit coloured showCanonical l hl
      refine ⟨status limit coloured l :: details ++ written, ?_, ?_, ?_⟩
      · intro w hw
        rcases List.mem_append.1 hw with hw | hw
        · rcases List.mem_cons.1 hw with rfl | hw
          · exact isLine_status hl
          · exact (hdetails w hw).1
        · exact hwritten w hw
      · rw [List.map_cons, List.flatMap_cons, hverdict, hflat, List.flatMap_append]
      · have hnone : details.filter (fun line => !isDetail line) = [] := by
          rw [List.filter_eq_nil_iff]
          intro d hd
          simp [(hdetails d hd).2]
        rw [List.cons_append, List.filter_cons_of_pos (by simp [isDetail_status]),
          List.filter_append, hnone, List.nil_append, hstatus, List.map_cons]

/-- There is one status line for each logical line, in order. -/
theorem statusLines_ofVerdicts :
    statusLines (ofVerdicts limit coloured showCanonical content).output =
      (Listing.logicalLines content).map (status limit coloured) := by
  obtain ⟨written, hwritten, hflat, hstatus⟩ :=
    @exists_lines_eq limit coloured showCanonical (Listing.logicalLines content)
      fun l hl => Listing.isLine_of_mem_logicalLines hl
  rw [ofVerdicts, LineReading.ofListing_eq]
  dsimp only
  rw [hflat, statusLines, Listing.splitOn_flatMap_concat hwritten, List.dropLast_concat, hstatus]

theorem code_ofVerdicts :
    (ofVerdicts limit coloured showCanonical content).code =
      if 0 < (Listing.malformedLines limit content).length then malformedCode
      else if 0 < (Listing.failedLines limit content).length then failedCode
      else successCode := by
  have hmalformed : (LineReading.ofListing limit content).countP LineReading.isMalformed =
      (Listing.malformedLines limit content).length := by
    rw [LineReading.ofListing_eq, List.countP_map, List.countP_eq_length_filter]
    rfl
  have hfailed : (LineReading.ofListing limit content).countP LineReading.isFailed =
      (Listing.failedLines limit content).length := by
    rw [LineReading.ofListing_eq, List.countP_map, List.countP_eq_length_filter]
    rfl
  rw [ofVerdicts, hmalformed, hfailed]

end Report

end DirectoryAccess
