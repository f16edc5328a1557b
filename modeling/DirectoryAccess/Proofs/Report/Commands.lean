import DirectoryAccess.Proofs.Instruction.Limit
import DirectoryAccess.Proofs.Report.Canonicals
import DirectoryAccess.Proofs.Report.Verdicts

/-!
# How the commands agree

The three commands read the same logical lines.  One that is no instruction makes
each of them end with the same code.  The trees and the canonical texts are then
not written at all, not even in part, while every line still has its verdict.
-/

namespace DirectoryAccess

namespace Report

variable {limit : Nat} {content : Text}

/-- The report has one status line for each logical line and ends with the weightiest fault. -/
structure GivesVerdicts (limit : Nat) (coloured : Bool) (content : Text) (r : Report) : Prop where
  code : r.code =
    if 0 < (Listing.malformedLines limit content).length then 5
    else if 0 < (Listing.failedLines limit content).length then 19
    else 0
  status : statusLines r.output = (Listing.logicalLines content).map (status limit coloured)
  complaints : r.complaints = []

/-- The report is all trees, or a complaint about each line that is no instruction. -/
structure GivesTrees (limit : Nat) (format : OutputFormat) (content : Text) (r : Report) :
    Prop where
  code : r.code = 5 ↔ 0 < (Listing.malformedLines limit content).length
  refused : 0 < (Listing.malformedLines limit content).length →
    r.output = [] ∧
      List.Forall₂
        (fun l c => ∃ e, Instruction.parseWith limit l.text = .error e ∧
          c = LineReading.complaintOn l e)
        (Listing.malformedLines limit content) r.complaints
  given : (Listing.malformedLines limit content).length = 0 →
    r.code = 0 ∧ r.complaints = [] ∧
      ∃ instructions,
        List.Forall₂ (fun l i => Instruction.parseWith limit l.text = .ok i)
          (Listing.logicalLines content) instructions ∧
        r.output = render format (.list (instructions.map Instruction.tree))

/-- The report is all canonical texts, or a complaint about the first line that has none. -/
structure GivesCanonicals (limit : Nat) (content : Text) (r : Report) : Prop where
  code : r.code = 5 ↔ 0 < (Listing.malformedLines limit content).length
  refused : 0 < (Listing.malformedLines limit content).length →
    r.output = [] ∧
      ∃ l e, (Listing.malformedLines limit content).head? = some l ∧
        Instruction.parseWith limit l.text = .error e ∧
          r.complaints = [LineReading.complaintOn l e]
  given : (Listing.malformedLines limit content).length = 0 →
    r.code = 0 ∧ r.complaints = [] ∧
      ∃ instructions,
        List.Forall₂ (fun l i => Instruction.parseWith limit l.text = .ok i)
          (Listing.logicalLines content) instructions ∧
        r.output = instructions.flatMap fun i => i.text ++ ['\n']

theorem givesVerdicts (coloured showCanonical : Bool) :
    GivesVerdicts limit coloured content (ofVerdicts limit coloured showCanonical content) :=
  ⟨code_ofVerdicts, statusLines_ofVerdicts, rfl⟩

theorem ofTrees_of_eq_nil (format : OutputFormat) (h : Listing.malformedLines limit content = []) :
    ∃ instructions,
      List.Forall₂ (fun l i => Instruction.parseWith limit l.text = .ok i)
        (Listing.logicalLines content) instructions ∧
      ofTrees limit format content =
        ⟨successCode, render format (.list (instructions.map Instruction.tree)), [],
          LineReading.entries (LineReading.ofListing limit content) ++
            [parsedEntry instructions.length]⟩ := by
  have hnone := LineReading.filterMap_complaint?_eq_nil_iff.2 h
  refine ⟨(LineReading.ofListing limit content).filterMap LineReading.instruction?,
    LineReading.forall₂_instructions (Listing.malformedLines_eq_nil_iff.1 h), ?_⟩
  simp only [ofTrees, hnone, List.isEmpty_nil, if_true]

theorem ofTrees_of_ne_nil (format : OutputFormat) (h : Listing.malformedLines limit content ≠ []) :
    ofTrees limit format content =
      ⟨malformedCode, [], (LineReading.ofListing limit content).filterMap LineReading.complaint?,
        LineReading.entries (LineReading.ofListing limit content)⟩ := by
  have hsome := mt LineReading.filterMap_complaint?_eq_nil_iff.1 h
  rw [ofTrees]
  dsimp only
  rw [if_neg]
  simpa using hsome

theorem givesTrees (format : OutputFormat) :
    GivesTrees limit format content (ofTrees limit format content) := by
  by_cases h : Listing.malformedLines limit content = []
  · obtain ⟨instructions, hread, hreport⟩ := ofTrees_of_eq_nil format h
    rw [hreport]
    exact {
      code := by simp [h, successCode]
      refused := fun hpos => absurd h (List.length_pos_iff.1 hpos)
      given := fun _ => ⟨rfl, rfl, instructions, hread, rfl⟩ }
  · rw [ofTrees_of_ne_nil format h]
    exact {
      code := by simp [malformedCode, List.length_pos_iff.2 h]
      refused := fun _ => ⟨rfl, LineReading.forall₂_complaints⟩
      given := fun hzero => absurd (List.length_eq_zero_iff.1 hzero) h }

theorem givesCanonicals : GivesCanonicals limit content (ofCanonicals limit content) := by
  by_cases h : Listing.malformedLines limit content = []
  · obtain ⟨instructions, hread, hreport⟩ := ofCanonicals_of_eq_nil h
    rw [hreport]
    exact {
      code := by simp [h, successCode]
      refused := fun hpos => absurd h (List.length_pos_iff.1 hpos)
      given := fun _ => ⟨rfl, rfl, instructions, hread, rfl⟩ }
  · rw [ofCanonicals_of_ne_nil h]
    exact {
      code := by simp [malformedCode, List.length_pos_iff.2 h]
      refused := fun _ => ⟨rfl, LineReading.exists_first_complaint h⟩
      given := fun hzero => absurd (List.length_eq_zero_iff.1 hzero) h }

end Report

namespace Invocation

/--
On one listing and under the same settings, the commands end with the same code if some line is no
instruction, give all of their output or none of it, and have a status or a complaint for each line
that they speak of, in order.
-/
theorem commands_agree {s : Surroundings} {rules config output : Option Text} {verbose : Nat}
    {settings : Settings} {content : Text} (hsettings : s.settings config = .ok settings)
    (hlisting : s.listing rules = .ok content) :
    (∀ showCanonical, ∃ r,
      run s ⟨.validate showCanonical, rules, config, output, verbose⟩ = .ok r ∧
        Report.GivesVerdicts settings.maxNestingDepth s.coloured content r) ∧
    (∀ chosen, ∃ r, run s ⟨.parseTree chosen, rules, config, output, verbose⟩ = .ok r ∧
      Report.GivesTrees settings.maxNestingDepth (chosen.getD settings.output) content r) ∧
    ∃ r, run s ⟨.format, rules, config, output, verbose⟩ = .ok r ∧
      Report.GivesCanonicals settings.maxNestingDepth content r := by
  have hrun (command : Command) : run s ⟨command, rules, config, output, verbose⟩ =
      .ok (command.report settings s.coloured content) :=
    run_eq_ok_iff.2 ⟨settings, content, hsettings, hlisting, rfl⟩
  refine ⟨fun showCanonical => ?_, fun chosen => ?_, ?_⟩
  · exact ⟨_, hrun (.validate showCanonical), Report.givesVerdicts s.coloured showCanonical⟩
  · exact ⟨_, hrun (.parseTree chosen), Report.givesTrees (chosen.getD settings.output)⟩
  · exact ⟨_, hrun .format, Report.givesCanonicals⟩

/-- A line that is no instruction, an instruction that is not in order, and one that is. -/
def mixedContent : Text :=
  "nonsense\n".toList ++
    "(targetscope != \"base\")(version 3.0; acl \"x\"; ".toList ++
    "allow(read) userdn < \"ldap:///anyone\";)\n".toList ++
    "(version 3.0; acl \"y\"; allow(read) userdn = \"ldap:///anyone\";)\n".toList

theorem logicalLines_mixedContent :
    Listing.logicalLines mixedContent =
      [⟨1, "nonsense".toList⟩,
        ⟨2, Instruction.assembled "(targetscope != \"base\")".toList "x".toList
          "allow(read) userdn < \"ldap:///anyone\";".toList⟩,
        ⟨3, Instruction.assembled [] "y".toList
          "allow(read) userdn = \"ldap:///anyone\";".toList⟩] := by
  decide +kernel

/-- One line of each kind. -/
theorem faults_mixedContent (limit : Nat) :
    (Listing.malformedLines limit mixedContent).map LogicalLine.number = [1] ∧
      (Listing.failedLines limit mixedContent).map LogicalLine.number = [2] := by
  have hnone : (Instruction.parseWith limit "nonsense".toList).toOption = none := rfl
  have hbad := Instruction.parseWith_mono Instruction.parseWith_mismatched (Nat.zero_le limit)
  have hgood := @parseWith_openToAll limit "y".toList
    (Text.isClosed_iff.2 ⟨by decide, by decide⟩) (by decide)
  rw [Listing.malformedLines, Listing.failedLines, logicalLines_mixedContent]
  constructor
  · simp only [List.filter, hnone, hbad, hgood]
    rfl
  · simp only [List.filter, hnone, hbad, hgood]
    rfl

theorem commands_agree_of_mixedContent :
    (inputOnly mixedContent).settings none = .ok .initial ∧
      (inputOnly mixedContent).listing none = .ok mixedContent ∧
      (Listing.malformedLines defaultDepth mixedContent).map LogicalLine.number = [1] ∧
      (Listing.failedLines defaultDepth mixedContent).map LogicalLine.number = [2] ∧
      (∀ showCanonical, ∃ r,
        run (inputOnly mixedContent) ⟨.validate showCanonical, none, none, none, 0⟩ = .ok r ∧
          r.code = 5 ∧ Report.GivesVerdicts defaultDepth false mixedContent r) ∧
      (∀ chosen, ∃ r,
        run (inputOnly mixedContent) ⟨.parseTree chosen, none, none, none, 0⟩ = .ok r ∧
          r.code = 5 ∧ Report.GivesTrees defaultDepth (chosen.getD .yaml) mixedContent r) ∧
      ∃ r, run (inputOnly mixedContent) ⟨.format, none, none, none, 0⟩ = .ok r ∧
        r.code = 5 ∧ Report.GivesCanonicals defaultDepth mixedContent r := by
  have hsettings : (inputOnly mixedContent).settings none = .ok .initial := rfl
  have hlisting : (inputOnly mixedContent).listing none = .ok mixedContent := rfl
  obtain ⟨hmalformed, hfailed⟩ := faults_mixedContent defaultDepth
  have hpos : 0 < (Listing.malformedLines defaultDepth mixedContent).length := by
    rw [← List.length_map LogicalLine.number, hmalformed]
    decide
  obtain ⟨hverdicts, htrees, hcanonicals⟩ := @commands_agree (inputOnly mixedContent) none none none
    0 .initial mixedContent hsettings hlisting
  refine ⟨hsettings, hlisting, hmalformed, hfailed, fun showCanonical => ?_, fun chosen => ?_, ?_⟩
  · obtain ⟨r, hr, hgives⟩ := hverdicts showCanonical
    exact ⟨r, hr, hgives.code.trans (if_pos hpos), hgives⟩
  · obtain ⟨r, hr, hgives⟩ := htrees chosen
    exact ⟨r, hr, hgives.code.2 hpos, hgives⟩
  · obtain ⟨r, hr, hgives⟩ := hcanonicals
    exact ⟨r, hr, hgives.code.2 hpos, hgives⟩

end Invocation

end DirectoryAccess
