import DirectoryAccess.Proofs.Outcome
import DirectoryAccess.Report

/-!
# What the lines of a listing were read as

Each report is made from the readings of the logical lines, in order.  A line
that is no instruction gives one complaint, any other line one instruction, and
reading may stop at the first complaint.
-/

namespace DirectoryAccess

namespace Listing

/-- The logical lines that are no instructions. -/
def malformedLines (limit : Nat) (content : Text) : List LogicalLine :=
  (logicalLines content).filter fun l => (Instruction.parseWith limit l.text).toOption.isNone

/-- The logical lines that are instructions which are not in order. -/
def failedLines (limit : Nat) (content : Text) : List LogicalLine :=
  (logicalLines content).filter fun l =>
    (Instruction.parseWith limit l.text).toOption.any fun i => i.check.toOption.isNone

theorem malformedLines_eq_nil_iff {limit : Nat} {content : Text} :
    malformedLines limit content = [] ↔
      ∀ l ∈ logicalLines content, ∃ i, Instruction.parseWith limit l.text = .ok i := by
  rw [malformedLines, List.filter_eq_nil_iff]
  refine forall₂_congr fun l _ => ?_
  cases Instruction.parseWith limit l.text <;> simp [Except.toOption]

end Listing

namespace LineReading

def ofLine (limit : Nat) (l : LogicalLine) : LineReading :=
  ⟨l, Instruction.journaledParse limit l.text⟩

def complaintOn (l : LogicalLine) (e : Error) : Text :=
  "Parsing error handling instruction at line ".toList ++ Text.ofNat l.number ++
    ", Error = ".toList ++ e.message.toList

variable {limit : Nat} {content : Text} {l : LogicalLine} {lines : List LogicalLine}

theorem ofListing_eq :
    ofListing limit content = (Listing.logicalLines content).map (ofLine limit) :=
  rfl

theorem complaint?_ofLine_error {e : Error} (h : Instruction.parseWith limit l.text = .error e) :
    (ofLine limit l).complaint? = some (complaintOn l e) := by
  rw [Instruction.parseWith] at h
  rw [complaint?, ofLine, h]
  rfl

theorem complaint?_ofLine_ok {i : Instruction} (h : Instruction.parseWith limit l.text = .ok i) :
    (ofLine limit l).complaint? = none := by
  rw [Instruction.parseWith] at h
  rw [complaint?, ofLine, h]

theorem instruction?_ofLine :
    (ofLine limit l).instruction? = (Instruction.parseWith limit l.text).toOption :=
  rfl

/-- There is one complaint about each line that is no instruction, in order. -/
theorem forall₂_complaints :
    List.Forall₂
      (fun l c => ∃ e, Instruction.parseWith limit l.text = .error e ∧ c = complaintOn l e)
      (lines.filter fun l => (Instruction.parseWith limit l.text).toOption.isNone)
      ((lines.map (ofLine limit)).filterMap complaint?) := by
  induction lines with
  | nil => exact .nil
  | cons l lines ih =>
      cases h : Instruction.parseWith limit l.text with
      | error e =>
          rw [List.filter_cons_of_pos (by rw [h]; rfl), List.map_cons,
            List.filterMap_cons_some (complaint?_ofLine_error h)]
          exact .cons ⟨e, h, rfl⟩ ih
      | ok i =>
          rw [List.filter_cons_of_neg (by rw [h]; simp [Except.toOption]), List.map_cons,
            List.filterMap_cons_none (complaint?_ofLine_ok h)]
          exact ih

/-- If no line is refused, each gives one instruction, in order. -/
theorem forall₂_instructions
    (h : ∀ l ∈ lines, ∃ i, Instruction.parseWith limit l.text = .ok i) :
    List.Forall₂ (fun l i => Instruction.parseWith limit l.text = .ok i) lines
      ((lines.map (ofLine limit)).filterMap instruction?) := by
  induction lines with
  | nil => exact .nil
  | cons l lines ih =>
      obtain ⟨i, hi⟩ := h l (by simp)
      have hsome : (ofLine limit l).instruction? = some i := by
        rw [instruction?_ofLine, hi]
        rfl
      rw [List.map_cons, List.filterMap_cons_some hsome]
      exact .cons hi (ih fun k hk => h k (List.mem_cons_of_mem l hk))

/-- Nothing is complained of exactly if every logical line is an instruction. -/
theorem filterMap_complaint?_eq_nil_iff :
    (ofListing limit content).filterMap complaint? = [] ↔
      Listing.malformedLines limit content = [] := by
  have hlength := (@forall₂_complaints limit (Listing.logicalLines content)).length_eq
  rw [ofListing_eq, ← List.length_eq_zero_iff, ← hlength, List.length_eq_zero_iff,
    Listing.malformedLines]

/-- The first complaint is about the first line that is no instruction. -/
theorem exists_first_complaint (h : Listing.malformedLines limit content ≠ []) :
    ∃ l e, (Listing.malformedLines limit content).head? = some l ∧
      Instruction.parseWith limit l.text = .error e ∧
        ((ofListing limit content).filterMap complaint?).take 1 = [complaintOn l e] := by
  have hcomplaints := @forall₂_complaints limit (Listing.logicalLines content)
  obtain ⟨l, ls, hls⟩ := List.exists_cons_of_ne_nil h
  rw [← ofListing_eq, ← Listing.malformedLines, hls, List.forall₂_cons_left_iff] at hcomplaints
  obtain ⟨c, cs, ⟨e, he, rfl⟩, -, hcs⟩ := hcomplaints
  refine ⟨l, e, by rw [hls, List.head?_cons], he, ?_⟩
  rw [hcs]
  rfl

theorem isMalformed_eq (r : LineReading) : r.isMalformed = r.complaint?.isSome := by
  rw [isMalformed, instruction?, complaint?]
  cases r.parsed.result with
  | error e => rfl
  | ok i => rfl

/-- Reading that stops at the first complaint makes that one and no other. -/
theorem filterMap_complaint?_throughFirstMalformed (rs : List LineReading) :
    (throughFirstMalformed rs).filterMap complaint? = (rs.filterMap complaint?).take 1 := by
  induction rs with
  | nil => rfl
  | cons r rs ih =>
      rw [throughFirstMalformed, isMalformed_eq]
      cases h : r.complaint? with
      | some c =>
          rw [Option.isSome_some, if_pos rfl, List.filterMap_cons_some h,
            List.filterMap_cons_some h]
          rfl
      | none =>
          rw [Option.isSome_none, if_neg Bool.false_ne_true, List.filterMap_cons_none h,
            List.filterMap_cons_none h, ih]

/-- Reading stops nowhere if there is nothing to complain of. -/
theorem throughFirstMalformed_eq_self {rs : List LineReading}
    (h : rs.filterMap complaint? = []) : throughFirstMalformed rs = rs := by
  induction rs with
  | nil => rfl
  | cons r rs ih =>
      have hnone : ∀ s ∈ r :: rs, s.complaint? = none := List.filterMap_eq_nil_iff.1 h
      have hrest : rs.filterMap complaint? = [] :=
        List.filterMap_eq_nil_iff.2 fun s hs => hnone s (List.mem_cons_of_mem r hs)
      rw [throughFirstMalformed, isMalformed_eq, hnone r (by simp), ih hrest]
      rfl

end LineReading

end DirectoryAccess
