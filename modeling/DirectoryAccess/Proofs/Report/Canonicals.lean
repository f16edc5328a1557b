import DirectoryAccess.Invocation.Run
import DirectoryAccess.Proofs.Instruction.Assembly
import DirectoryAccess.Proofs.Instruction.Line
import DirectoryAccess.Proofs.Listing.Lines
import DirectoryAccess.Proofs.Report.Readings

/-!
# Canonical texts as a listing

The text of an instruction that was read from a line starts with a parenthesis,
ends with one and holds no line feed.  So what is written as the canonical texts
of a listing is a listing of these texts, each the logical line of its number.
-/

namespace DirectoryAccess

namespace Instruction

variable {limit : Nat} {t : Text} {i : Instruction}

theorem exists_text_eq_cons (h : parseWith limit t = .ok i) : ∃ rest, i.text = '(' :: rest := by
  rw [text_eq]
  cases hr : i.targetRule with
  | none => exact ⟨_, by rw [targetText, hr]; rfl⟩
  | some r =>
      obtain ⟨m, hm⟩ := TargetRule.exists_text_eq (targetRule_of_parseWith h hr).1
      have htarget : i.targetText = '(' :: (m ++ [')']) := by
        rw [targetText, hr]
        exact hm
      exact ⟨_, by rw [htarget]; rfl⟩

theorem standsAlone_text (h : parseWith limit t = .ok i) (ht : t.IsLine) :
    Listing.StandsAlone i.text := by
  obtain ⟨rest, hrest⟩ := exists_text_eq_cons h
  exact {
    isLine := isLine_text_of_parseWith h ht
    isTrimmed := Text.isTrimmed_of_trim_eq (trim_text h)
    first := ⟨'(', rest, hrest, by decide⟩
    unnamed := by
      rw [hrest]
      rfl }

end Instruction

namespace Report

variable {limit : Nat} {content : Text}

theorem ofCanonicals_of_eq_nil (h : Listing.malformedLines limit content = []) :
    ∃ instructions,
      List.Forall₂ (fun l i => Instruction.parseWith limit l.text = .ok i)
        (Listing.logicalLines content) instructions ∧
      ofCanonicals limit content =
        ⟨successCode, instructions.flatMap fun i => i.text ++ ['\n'], [],
          LineReading.entries (LineReading.ofListing limit content)⟩ := by
  have hnone := LineReading.filterMap_complaint?_eq_nil_iff.2 h
  refine ⟨(LineReading.ofListing limit content).filterMap LineReading.instruction?,
    LineReading.forall₂_instructions (Listing.malformedLines_eq_nil_iff.1 h), ?_⟩
  simp only [ofCanonicals, LineReading.throughFirstMalformed_eq_self hnone, hnone,
    List.isEmpty_nil, if_true]

theorem ofCanonicals_of_ne_nil (h : Listing.malformedLines limit content ≠ []) :
    ofCanonicals limit content =
      ⟨malformedCode, [], ((LineReading.ofListing limit content).filterMap
          LineReading.complaint?).take 1,
        LineReading.entries (LineReading.throughFirstMalformed
          (LineReading.ofListing limit content))⟩ := by
  have hsome := mt LineReading.filterMap_complaint?_eq_nil_iff.1 h
  simp only [ofCanonicals, LineReading.filterMap_complaint?_throughFirstMalformed]
  rw [if_neg]
  simpa using hsome

theorem code_ofCanonicals :
    (ofCanonicals limit content).code =
      if Listing.malformedLines limit content = [] then successCode else malformedCode := by
  split
  · rename_i h
    obtain ⟨instructions, -, hreport⟩ := ofCanonicals_of_eq_nil h
    rw [hreport]
  · rename_i h
    rw [ofCanonicals_of_ne_nil h]

/-- The canonical texts of a listing are the logical lines of the listing that they make. -/
theorem logicalLines_canonicals {instructions : List Instruction}
    (h : List.Forall₂ (fun l i => Instruction.parseWith limit l.text = .ok i)
      (Listing.logicalLines content) instructions) :
    Listing.logicalLines (instructions.flatMap fun i => i.text ++ ['\n']) =
      (instructions.map Instruction.text).mapIdx fun k t => ⟨k + 1, t⟩ := by
  have hwhole : ∀ t ∈ instructions.map Instruction.text, Listing.StandsAlone t := by
    intro t ht
    obtain ⟨i, hi, rfl⟩ := List.mem_map.1 ht
    obtain ⟨l, hl, hread⟩ := Outcome.exists_of_mem_right h hi
    exact Instruction.standsAlone_text hread (Listing.isLine_of_mem_logicalLines hl)
  rw [← Listing.logicalLines_flatMap_concat hwhole, List.flatMap_map]

end Report

namespace Invocation

variable {s : Surroundings} {i : Invocation} {r : Report}

theorem run_eq_ok_iff :
    i.run s = .ok r ↔ ∃ settings content, s.settings i.config = .ok settings ∧
      s.listing i.rules = .ok content ∧ i.command.report settings s.coloured content = r := by
  simp only [run, Outcome.bind_eq_ok, pure, Except.pure, Except.ok.injEq]
  constructor
  · rintro ⟨settings, hsettings, content, hcontent, hreport⟩
    exact ⟨settings, content, hsettings, hcontent, hreport⟩
  · rintro ⟨settings, content, hsettings, hcontent, hreport⟩
    exact ⟨settings, hsettings, content, hcontent, hreport⟩

/--
Canonical texts that were written are a listing again: its logical lines are those texts,
numbered from 1, and nothing else.
-/
theorem format_writes_a_listing (hrun : i.run s = .ok r) (hcommand : i.command = .format)
    (hcode : r.code = Report.successCode) :
    ∃ settings content instructions,
      s.settings i.config = .ok settings ∧ s.listing i.rules = .ok content ∧
        List.Forall₂ (fun l x => Instruction.parseWith settings.maxNestingDepth l.text = .ok x)
          (Listing.logicalLines content) instructions ∧
        r.output = instructions.flatMap (fun x => x.text ++ ['\n']) ∧
        Listing.logicalLines r.output =
          (instructions.map Instruction.text).mapIdx fun k t => ⟨k + 1, t⟩ := by
  obtain ⟨settings, content, hsettings, hcontent, rfl⟩ := run_eq_ok_iff.1 hrun
  rw [hcommand, Command.report] at hcode ⊢
  have hnone : Listing.malformedLines settings.maxNestingDepth content = [] := by
    by_contra hsome
    rw [Report.code_ofCanonicals, if_neg hsome] at hcode
    cases hcode
  obtain ⟨instructions, hread, hreport⟩ := Report.ofCanonicals_of_eq_nil hnone
  rw [hreport]
  exact ⟨settings, content, instructions, hsettings, hcontent, hread, rfl,
    Report.logicalLines_canonicals hread⟩

/-- Surroundings in which a listing comes from the standard input and nothing is set. -/
def inputOnly (content : Text) : Surroundings :=
  ⟨[], fun _ => .error .missing, .ok content, false⟩

/-- A listing with a comment, a name, a fold, a blank line and marks in its labels. -/
def unevenContent : Text :=
  "# all\r\nACI:\t(version 3.0; acl \"# aci: a\"; allow(read)\r\n".toList ++
    "  userdn = \"ldap:///anyone\";)  \r\n\n".toList ++
    "(version 3.0; acl \"a \\\"; )\"; allow(read) userdn = \"ldap:///anyone\";)".toList

theorem logicalLines_unevenContent :
    Listing.logicalLines unevenContent =
      [⟨2, Instruction.assembled [] "# aci: a".toList
          "allow(read) userdn = \"ldap:///anyone\";".toList⟩,
        ⟨5, Instruction.assembled [] "a \\\"; )".toList
          "allow(read) userdn = \"ldap:///anyone\";".toList⟩] := by
  decide +kernel

/-- An instruction for everyone to read, read at any limit. -/
theorem parseWith_openToAll (limit : Nat) {label : Text} (hclosed : label.isClosed = true)
    (hblank : Text.isBlankText label = false) :
    Instruction.parseWith limit (Instruction.assembled [] label
      "allow(read) userdn = \"ldap:///anyone\";".toList) =
        .ok ⟨none, label, Instruction.openToAll⟩ :=
  Instruction.parseWith_assembled (.inl ⟨rfl, rfl⟩) (.nil (by decide)) hclosed hblank
    Instruction.parseWith_openToAll

theorem malformedLines_unevenContent (limit : Nat) :
    Listing.malformedLines limit unevenContent = [] := by
  rw [Listing.malformedLines_eq_nil_iff, logicalLines_unevenContent, List.forall_mem_cons,
    List.forall_mem_singleton]
  exact ⟨⟨_, parseWith_openToAll limit (Text.isClosed_iff.2 ⟨by decide, by decide⟩) (by decide)⟩,
    ⟨_, parseWith_openToAll limit (Text.isClosed_iff.2 ⟨by decide, by decide⟩) (by decide)⟩⟩

theorem format_writes_a_listing_of_unevenContent :
    ∃ r, run (inputOnly unevenContent) ⟨.format, none, none, none, 0⟩ = .ok r ∧
      r.code = Report.successCode ∧
      ∃ settings content instructions,
        (inputOnly unevenContent).settings none = .ok settings ∧
          (inputOnly unevenContent).listing none = .ok content ∧
          List.Forall₂ (fun l x => Instruction.parseWith settings.maxNestingDepth l.text = .ok x)
            (Listing.logicalLines content) instructions ∧
          r.output = instructions.flatMap (fun x => x.text ++ ['\n']) ∧
          Listing.logicalLines r.output =
            (instructions.map Instruction.text).mapIdx fun k t => ⟨k + 1, t⟩ := by
  have hrun : run (inputOnly unevenContent) ⟨.format, none, none, none, 0⟩ =
      .ok (Report.ofCanonicals Settings.initial.maxNestingDepth unevenContent) :=
    run_eq_ok_iff.2 ⟨.initial, unevenContent, rfl, rfl, rfl⟩
  have hcode : (Report.ofCanonicals Settings.initial.maxNestingDepth unevenContent).code =
      Report.successCode := by
    rw [Report.code_ofCanonicals, if_pos (malformedLines_unevenContent _)]
  exact ⟨_, hrun, hcode, format_writes_a_listing hrun rfl hcode⟩

end Invocation

end DirectoryAccess
