import DirectoryAccess.Proofs.Instruction.Form
import DirectoryAccess.Proofs.Instruction.Line
import DirectoryAccess.Proofs.Value.Citation

/-!
# What refusals cite

Whatever is wrong with an instruction on one line, the refusal cites texts on one
line only, and so is told on one line.
-/

namespace DirectoryAccess

open Outcome
open Text (IsLine)

def Error.CitesLines (e : Error) : Prop :=
  ∀ t ∈ e.cited, IsLine t

open Error (CitesLines)

@[simp] theorem Error.citesLines_grammar_iff {f : GrammarFault} :
    CitesLines (.grammar f) ↔ ∀ t ∈ f.cited, IsLine t := by
  rw [CitesLines, cited]

variable {limit : Nat} {t : Text}

def Halt.fragment : Halt → Text
  | noToken fragment => fragment
  | openQuote fragment => fragment

theorem Halt.citesLines_fault {halt : Halt} (h : IsLine halt.fragment) (rule : RuleKind)
    (whole : Text) : CitesLines (.scan (halt.fault rule whole)) := by
  cases halt <;>
    simpa [CitesLines, Error.cited, fault, ScanFault.cited, Place.ofFragment, fragment] using h

/-- A reader leaves one line of one line, be it behind a token or where a quote is open. -/
def TokenReader.KeepsLines {τ : Type} (r : TokenReader τ) : Prop :=
  ∀ t, IsLine t → match r.read t with
    | .token _ rest => IsLine rest
    | .openQuote fragment => IsLine fragment
    | .nothing => True

theorem TokenReader.failsOnlyWith_scan {τ : Type} {r : TokenReader τ} (hr : r.KeepsLines)
    (ht : IsLine t) : FailsOnlyWith (fun halt => IsLine halt.fragment) (r.scan t) := by
  have hnext (t : Text) (ht : IsLine t) : IsLine (Text.skipSeparators t) := ht.dropWhile _
  fun_induction r.scan t with
  | case1 => exact .ok []
  | case2 t next _ found rest hread ih =>
      have hrest := hr next (hnext t ht)
      rw [hread] at hrest
      exact (ih hrest).map
  | case3 t next _ fragment hread =>
      have hfragment := hr next (hnext t ht)
      rw [hread] at hfragment
      exact .error hfragment
  | case4 t next => exact .error (hnext t ht)

namespace BindToken

theorem keepsLines_reader : reader.KeepsLines := by
  intro t ht
  cases hread : reader.read t with
  | token token rest => exact ((takes_of_read hread).isLine ht).2
  | openQuote fragment =>
      obtain ⟨rfl, -⟩ := eq_of_read_openQuote hread
      exact (Text.isLine_cons_iff.1 ht).2
  | nothing => trivial

theorem failsOnlyWith_tokens (ht : IsLine t) : FailsOnlyWith CitesLines (tokens t) := by
  unfold tokens
  split
  · rename_i halt hhalt
    have hfragment := TokenReader.failsOnlyWith_scan keepsLines_reader ht halt hhalt
    exact .error (Halt.citesLines_fault hfragment .bind t)
  · dsimp only
    split
    · exact .error (by simpa [CitesLines, Error.cited, ScanFault.cited] using ht.trim)
    · exact .ok _

end BindToken

namespace TargetToken

def OnLine : TargetToken → Prop
  | keyword name => IsLine name
  | value v => IsLine v
  | _ => True

theorem Takes.onLine {rest : Text} {token : TargetToken} (h : Takes t token rest)
    (ht : IsLine t) : token.OnLine ∧ IsLine rest := by
  obtain ⟨hfrom, hrest⟩ := h.isFrom
  refine ⟨?_, ht.of_isInfix hrest.isInfix⟩
  cases h with
  | keyword => exact (Text.isLine_append_iff.1 ht).1
  | value => exact ht.of_isInfix hfrom.1
  | _ => trivial

theorem keepsLines_reader : reader.KeepsLines := by
  intro t ht
  cases hread : reader.read t with
  | token token rest => exact ((takes_of_read hread).onLine ht).2
  | openQuote fragment =>
      obtain rfl := eq_of_read_openQuote hread
      exact (Text.isLine_cons_iff.1 ht).2
  | nothing => trivial

theorem onLine_of_scan {ts : List TargetToken} (h : reader.scan t = .ok ts) (ht : IsLine t) :
    ∀ token ∈ ts, token.OnLine := by
  revert ht
  refine reader.scan_induction (motive := fun t ts => IsLine t → ∀ u ∈ ts, u.OnLine) ?_ ?_ h
  · intro t _ _ u hu
    cases hu
  · intro t found rest ts hread ih ht u hu
    obtain ⟨hfound, hrest⟩ := (takes_of_read hread).onLine (ht.dropWhile Text.isSeparator)
    rcases List.mem_cons.1 hu with rfl | hu
    · exact hfound
    · exact ih hrest u hu

theorem onLine_of_tokens {ts : List TargetToken} (h : tokens t = .ok ts) (ht : IsLine t) :
    ∀ token ∈ ts, token.OnLine := by
  unfold tokens at h
  split at h
  · cases h
  · rename_i found hscan
    cases h
    exact onLine_of_scan hscan ht

theorem failsOnlyWith_tokens (ht : IsLine t) : FailsOnlyWith CitesLines (tokens t) := by
  unfold tokens
  split
  · rename_i halt hhalt
    have hfragment := TokenReader.failsOnlyWith_scan keepsLines_reader ht halt hhalt
    exact .error (Halt.citesLines_fault hfragment .target t)
  · exact .ok _

end TargetToken

namespace Value

theorem failsOnlyWith_parseBind {raw : Text} (hraw : IsLine raw) (k : BindKeyword) :
    FailsOnlyWith CitesLines (parseBind k raw) :=
  (failsOnlyWith_readBind hraw k).mapError fun f hf => by
    rw [CitesLines, Error.cited]
    exact hf

theorem failsOnlyWith_parseTarget {raws : List Text} (hraws : ∀ raw ∈ raws, IsLine raw)
    (k : TargetKeyword) : FailsOnlyWith CitesLines (parseTarget k raws) :=
  (failsOnlyWith_readTarget hraws k).mapError fun f hf => by
    rw [CitesLines, Error.cited]
    exact hf

end Value

namespace BindRule

variable {ts : List BindToken}

theorem failsOnlyWith_conditionOf (hts : ∀ u ∈ ts, IsLine u.text) :
    FailsOnlyWith CitesLines (conditionOf ts).result := by
  have hspell := isLine_spell hts
  have hbad (op : Operator) :
      CitesLines (.grammar (.badCondition op (spell ts))) := by
    simpa [GrammarFault.cited] using hspell
  unfold conditionOf
  split
  · exact .error (by simpa [GrammarFault.cited] using hspell)
  · rename_i front op back hcut
    obtain ⟨comparison, rfl, -, -⟩ := cutLastOperator?_eq_some_iff.1 hcut
    dsimp only
    split
    · rename_i name
      have hname : IsLine name.text := hts name (by simp)
      have hback : IsLine (spell back) := isLine_spell fun u hu => hts u (by simp [hu])
      split
      · exact .error (hbad op)
      · refine .result_bind ?_ fun keyword _ => .result_bind ?_ fun value _ => .ok _
        · rw [Journaled.result_lift, BindKeyword.parse]
          split
          · exact .ok _
          · exact .error (by simpa [CitesLines, Error.cited] using hname.trim)
        · exact Value.failsOnlyWith_parseBind hback keyword
    · exact .error (hbad op)

theorem failsOnlyWith_joined (first : BindRule) (others : List (Connective × BindRule)) :
    FailsOnlyWith CitesLines (joined first others) := by
  unfold joined
  split_ifs
  · exact .ok _
  · exact .ok _
  · exact .ok _
  · exact .error (by simp [GrammarFault.cited])

/-- The readers of rules cite tokens of the rule, or nothing. -/
structure ReadersCite (limit fuel : Nat) : Prop where
  rule : ∀ depth ts, (∀ u ∈ ts, IsLine u.text) →
    FailsOnlyWith CitesLines (ruleWith limit fuel depth ts).result
  operand : ∀ depth ts, (∀ u ∈ ts, IsLine u.text) →
    FailsOnlyWith CitesLines (operandWith limit fuel depth ts).result
  others : ∀ depth ts, (∀ u ∈ ts, IsLine u.text) →
    FailsOnlyWith CitesLines (othersWith limit fuel depth ts).result

/-- An operand leaves tokens of those that it is read from. -/
theorem isLine_of_operandWith {fuel depth : Nat} {ts rest : List BindToken} {r : BindRule}
    (h : (operandWith limit fuel depth ts).result = .ok (r, rest))
    (hts : ∀ u ∈ ts, IsLine u.text) : ∀ u ∈ rest, IsLine u.text := by
  obtain ⟨used, rfl, -⟩ := (readers_sound limit fuel).operand depth ts r rest h
  exact fun u hu => hts u (List.mem_append_right used hu)

namespace ReadersCite

variable {fuel : Nat} {ts : List BindToken}

theorem ruleWith_succ (h : ReadersCite limit fuel) (depth : Nat)
    (hts : ∀ u ∈ ts, IsLine u.text) :
    FailsOnlyWith CitesLines (ruleWith limit (fuel + 1) depth ts).result := by
  refine .result_bind (h.operand depth ts hts) fun found hfound => ?_
  have hrest := isLine_of_operandWith hfound hts
  refine .result_bind (h.others depth found.2 hrest) fun others _ => ?_
  exact .result_bind (failsOnlyWith_joined found.1 others.1) fun rule _ => .ok _

theorem operandWith_succ (h : ReadersCite limit fuel) (depth : Nat)
    (hts : ∀ u ∈ ts, IsLine u.text) :
    FailsOnlyWith CitesLines (operandWith limit (fuel + 1) depth ts).result := by
  unfold operandWith
  split
  · exact .error (by simp [GrammarFault.cited])
  · rename_i t rest
    have hrest : ∀ u ∈ rest, IsLine u.text := fun u hu => hts u (List.mem_cons_of_mem t hu)
    split
    · split
      · exact .error (by simp [GrammarFault.cited])
      · refine .result_bind (h.rule (depth + 1) rest hrest) fun found _ => ?_
        dsimp only
        split
        · split
          · exact .ok _
          · exact .error (by simp [GrammarFault.cited])
        · exact .error (by simp [GrammarFault.cited])
    · refine .result_bind (failsOnlyWith_conditionOf fun u hu => ?_) fun rule _ => .ok _
      exact hts u ((List.takeWhile_prefix _).subset hu)
    · exact .error (by simpa [GrammarFault.cited] using hts t (by simp))

theorem othersWith_succ (h : ReadersCite limit fuel) (depth : Nat)
    (hts : ∀ u ∈ ts, IsLine u.text) :
    FailsOnlyWith CitesLines (othersWith limit (fuel + 1) depth ts).result := by
  have hmore (c : Connective) (rest : List BindToken) (hrest : ∀ u ∈ rest, IsLine u.text) :
      FailsOnlyWith CitesLines
        (operandWith limit fuel depth rest >>= fun found =>
          othersWith limit fuel depth found.2 >>= fun others =>
            pure ((c, found.1) :: others.1, others.2)).result := by
    refine .result_bind (h.operand depth rest hrest) fun found hfound => ?_
    have hbehind := isLine_of_operandWith hfound hrest
    exact .result_bind (h.others depth found.2 hbehind) fun others _ => .ok _
  unfold othersWith
  dsimp only
  split
  · exact .ok _
  · rename_i t rest
    have hrest : ∀ u ∈ rest, IsLine u.text := fun u hu => hts u (List.mem_cons_of_mem t hu)
    split
    · exact .ok _
    · exact hmore .and rest hrest
    · exact hmore .or rest hrest
    · exact hmore .andNot rest hrest
    · exact .error (by simp [GrammarFault.cited])
    · exact .error (by simpa [GrammarFault.cited] using hts t (by simp))

end ReadersCite

theorem readers_cite (limit fuel : Nat) : ReadersCite limit fuel := by
  induction fuel with
  | zero => constructor <;> exact fun _ _ _ => .error (by simp [GrammarFault.cited])
  | succ fuel ih =>
      exact {
        rule := fun depth _ => ih.ruleWith_succ depth
        operand := fun depth _ => ih.operandWith_succ depth
        others := fun depth _ => ih.othersWith_succ depth }

theorem failsOnlyWith_parseWith (ht : IsLine t) :
    FailsOnlyWith CitesLines (parseWith limit t) := by
  unfold parseWith journaledParse
  refine .result_bind (BindToken.failsOnlyWith_tokens ht) fun ts htokens => ?_
  have hts : ∀ u ∈ ts, IsLine u.text := BindToken.isLine_of_tokens htokens ht
  refine .result_bind (.ok ()) fun _ _ => ?_
  unfold ofTokens
  split
  · exact .error (by simpa [GrammarFault.cited] using ht.trim)
  · refine .result_bind ((readers_cite limit (steps ts)).rule 0 ts hts) fun found hfound => ?_
    obtain ⟨used, hused, -⟩ :=
      (readers_sound limit (steps ts)).rule 0 ts found.1 found.2 hfound
    dsimp only
    split
    · exact .ok _
    · rename_i u rest hrest
      have hu : IsLine u.text := hts u (by simp [hused, hrest])
      exact .error (by simpa [GrammarFault.cited] using ⟨hu, ht.trim⟩)

end BindRule

namespace TargetRule

open TargetToken (OnLine)

theorem failsOnlyWith_valuesFrom (k : TargetKeyword) (ts : List TargetToken) :
    FailsOnlyWith CitesLines (valuesFrom k ts) := by
  fun_induction valuesFrom k ts with
  | case1 v rest ih => exact ih.map
  | case2 => exact .ok _
  | case3 => exact .error (by simp [GrammarFault.cited])
  | case4 => exact .error (by simp [GrammarFault.cited])

theorem failsOnlyWith_clauseFrom {ts : List TargetToken} (hts : ∀ u ∈ ts, u.OnLine) :
    FailsOnlyWith CitesLines (clauseFrom ts) := by
  unfold clauseFrom
  split
  · rename_i name rest
    have hname : IsLine name := hts (.keyword name) (by simp)
    refine .bind ?_ fun keyword _ => ?_
    · unfold TargetKeyword.parse
      split
      · exact .ok _
      · exact .error (by simpa [CitesLines, Error.cited] using hname.trim)
    · split
      · rename_i op values
        refine .bind (failsOnlyWith_valuesFrom keyword values) fun found hfound => ?_
        have hraws : ∀ raw ∈ found.1, IsLine raw := by
          obtain ⟨-, rfl⟩ := valuesFrom_eq_ok_iff.1 hfound
          intro raw hraw
          have hmem : TargetToken.value raw ∈ valueTokens found.1 ++ found.2 :=
            List.mem_append_left _ (value_mem_valueTokens.2 hraw)
          exact hts (.value raw) (by simp [hmem])
        exact .bind (Value.failsOnlyWith_parseTarget hraws keyword) fun _ _ => .ok _
      · exact .error (by simp [GrammarFault.cited])
  · exact .error (by simp [GrammarFault.cited])

theorem failsOnlyWith_pushClauses {r : TargetRule} {ts : List TargetToken}
    (hts : ∀ u ∈ ts, u.OnLine) : FailsOnlyWith CitesLines (pushClauses r ts).result := by
  fun_induction pushClauses r ts with
  | case1 => exact .ok _
  | case2 r ts _ e hclause => exact .error (failsOnlyWith_clauseFrom hts e hclause)
  | case3 r ts _ c rest hclause ih =>
      obtain ⟨used, rfl, -⟩ := clauseFrom_eq_ok_iff.1 hclause
      exact .result_bind (.ok ()) fun _ _ => ih fun u hu => hts u (List.mem_append_right used hu)

theorem failsOnlyWith_parse (ht : IsLine t) : FailsOnlyWith CitesLines (parse t) := by
  unfold parse journaledParse
  refine .result_bind (TargetToken.failsOnlyWith_tokens ht) fun ts htokens => ?_
  refine .result_bind (.ok ()) fun _ _ => failsOnlyWith_pushClauses ?_
  exact TargetToken.onLine_of_tokens htokens ht

end TargetRule

theorem Permission.failsOnlyWith_parse (ht : IsLine t) : FailsOnlyWith CitesLines (parse t) := by
  have hrights {names : Text} (hnames : IsLine names) :
      FailsOnlyWith CitesLines (Rights.parse names) := by
    unfold Rights.parse
    refine .bind (.mapM fun piece hpiece => ?_) fun sets _ => .ok _
    obtain ⟨part, hpart, rfl⟩ := List.mem_map.1 hpiece
    unfold Rights.readPiece
    split
    · exact .ok _
    · exact .error (by simpa [CitesLines, Error.cited] using (hnames.splitOn ',' part hpart).trim)
  have htext := ht.trim
  unfold parse
  dsimp only
  split
  · exact .error (by simpa [GrammarFault.cited] using htext)
  · rename_i inner hstrip
    split
    · exact .error (by simpa [GrammarFault.cited] using htext)
    · split
      · exact .error (by simpa [GrammarFault.cited] using htext)
      · rename_i front names hcut
        obtain ⟨hfront, hnames⟩ := (htext.stripLast? hstrip).cut? hcut
        split
        · exact .error (by
            simpa [GrammarFault.cited] using ⟨hfront.trim.lower, htext⟩)
        · exact (hrights hnames).map

theorem Statement.failsOnlyWith_parseWith (ht : IsLine t) :
    FailsOnlyWith CitesLines (parseWith limit t) := by
  unfold parseWith journaledParse
  dsimp only
  split
  · exact .error (by simpa [GrammarFault.cited] using ht.trim)
  · rename_i front rule hcut
    obtain ⟨hfront, hrule⟩ := ht.trim.cut? hcut
    have hpermission : IsLine (front ++ [')']) := by simpa using hfront
    refine .result_bind (Permission.failsOnlyWith_parse hpermission) fun permission _ => ?_
    exact .result_bind (BindRule.failsOnlyWith_parseWith hrule) fun rule _ => .ok _

namespace Policy

theorem failsOnlyWith_pushSegments {segments : List Text} (h : ∀ s ∈ segments, IsLine s)
    (p : Policy) : FailsOnlyWith CitesLines (pushSegments limit p segments).result := by
  induction segments generalizing p with
  | nil => exact .ok p
  | cons segment segments ih =>
      refine .result_bind (.ok ()) fun _ _ => ?_
      refine .result_bind (Statement.failsOnlyWith_parseWith (h segment (by simp))) fun s _ => ?_
      exact ih (fun u hu => h u (List.mem_cons_of_mem segment hu)) (p.push s)

theorem failsOnlyWith_parseWith (ht : IsLine t) :
    FailsOnlyWith CitesLines (parseWith limit t) := by
  unfold parseWith journaledParse
  refine .result_bind (failsOnlyWith_pushSegments (isLine_of_mem_segments ht) empty) fun p _ => ?_
  split
  · exact .error (by simpa [GrammarFault.cited] using ht.trim)
  · exact .ok _

end Policy

namespace Instruction

theorem failsOnlyWith_journaledTarget (ht : IsLine t) :
    FailsOnlyWith CitesLines (journaledTarget t).result := by
  unfold journaledTarget
  dsimp only
  split
  · exact .ok _
  · exact .result_bind (TargetRule.failsOnlyWith_parse ht.trim) fun rule _ => .ok _

theorem failsOnlyWith_readLabel (t : Text) : FailsOnlyWith CitesLines (readLabel t) := by
  unfold readLabel
  repeat' split
  all_goals first
    | exact .ok _
    | exact .error (by simp [CitesLines, Error.cited, GrammarFault.cited, RuleFault.cited])

theorem failsOnlyWith_readBody {label : Text} (hlabel : IsLine label) (t : Text) :
    FailsOnlyWith CitesLines (readBody label t) := by
  unfold readBody
  split
  · exact .error (by simpa [GrammarFault.cited] using hlabel)
  · split
    · exact .error (by simpa [GrammarFault.cited] using hlabel)
    · exact .ok _

theorem failsOnlyWith_parseWith (ht : IsLine t) :
    FailsOnlyWith CitesLines (parseWith limit t) := by
  unfold parseWith journaledParse
  dsimp only
  split
  · exact .error (by simpa [GrammarFault.cited] using ht.trim)
  · rename_i front behind hcut
    obtain ⟨hfront, hbehind⟩ := ht.trim.cutFold? (by decide) hcut
    split
    · exact .error (by simp [GrammarFault.cited])
    · rename_i targets hstrip
      have htargets := hfront.trimEnd.stripLast? hstrip
      refine .result_bind (failsOnlyWith_journaledTarget htargets) fun targetRule _ => ?_
      refine .result_bind (failsOnlyWith_readLabel behind) fun found hfound => ?_
      obtain ⟨hlabel, hafter⟩ := isLine_of_readLabel hfound hbehind
      refine .result_bind (failsOnlyWith_readBody hlabel found.2) fun body hbody => ?_
      have hpolicy := @Policy.failsOnlyWith_parseWith limit body (isLine_of_readBody hbody hafter)
      exact .result_bind hpolicy fun policy _ => .ok _

/-- A line that is no instruction is refused on one line. -/
theorem isLine_message_of_parseWith {e : Error} (h : parseWith limit t = .error e)
    (ht : IsLine t) : IsLine e.message.toList :=
  Error.isLine_message (failsOnlyWith_parseWith ht e h)

/-- The verdict on an instruction that was read is told on one line, too. -/
theorem isLine_message_of_check {i : Instruction} {e : Error} (h : parseWith limit t = .ok i)
    (hcheck : i.check = .error e) : IsLine e.message.toList := by
  have hform := isWellFormed_of_parseWith h
  obtain ⟨body, hpolicy⟩ := exists_policy_of_parseWith h
  have hcomes := comeTo_check hform (Policy.parseWith_eq_ok_iff.1 hpolicy).2
  rw [flatMap_operatorFaults h, hcheck] at hcomes
  have hfaults : ∀ f ∈ i.operatorFaults, f.cited = [] := by
    intro f hf
    rcases List.mem_append.1 hf with hf | hf
    · obtain ⟨c, -, rfl⟩ := List.mem_map.1 hf
      rw [Error.cited]
    · obtain ⟨c, -, rfl⟩ := List.mem_map.1 hf
      rw [Error.cited]
  have hcited : e.cited = [] := by
    have hleaves : e.leaves = i.operatorFaults := by
      simpa [Error.findings, Error.leavesOfAll] using hcomes.leaves
    rw [Error.cited_eq_flatMap_leaves, hleaves, List.flatMap_eq_nil_iff]
    exact hfaults
  exact Error.isLine_message (by simp [hcited])

end Instruction

end DirectoryAccess
