import DirectoryAccess.Proofs.Instruction.RoundTrip
import DirectoryAccess.Proofs.Value.Line

/-!
# Instructions on one line

The tokens of a line are on one line, and so is all that is written of the rules
that they derive.  An instruction that is read from one line is therefore written
on one line.
-/

namespace DirectoryAccess

open Text (IsLine)

variable {limit : Nat} {t : Text}

namespace BindToken

theorem Takes.isLine {rest : Text} {token : BindToken} (h : Takes t token rest) (ht : IsLine t) :
    IsLine token.text ∧ IsLine rest := by
  cases h with
  | openParen => simpa using ht
  | closeParen => simpa using ht
  | quoted => simpa using ht
  | operator op => exact ⟨op.isLine_symbol, (Text.isLine_append_iff.1 ht).2⟩
  | word => exact Text.isLine_append_iff.1 ht

theorem isLine_of_scan {ts : List BindToken} (h : reader.scan t = .ok ts) (ht : IsLine t) :
    ∀ u ∈ ts, IsLine u.text := by
  revert ht
  refine reader.scan_induction (motive := fun t ts => IsLine t → ∀ u ∈ ts, IsLine u.text) ?_ ?_ h
  · intro t _ _ u hu
    cases hu
  · intro t found rest ts hread ih ht u hu
    obtain ⟨hfound, hrest⟩ := (takes_of_read hread).isLine (ht.dropWhile Text.isSeparator)
    rcases List.mem_cons.1 hu with rfl | hu
    · exact hfound
    · exact ih hrest u hu

theorem isLine_joinNots {ts : List BindToken} (h : ∀ u ∈ ts, IsLine u.text) :
    ∀ u ∈ joinNots ts, IsLine u.text := by
  revert h
  refine joinNots_induction (motive := fun ts us =>
    (∀ u ∈ ts, IsLine u.text) → ∀ u ∈ us, IsLine u.text) (fun h => h) ?_ ?_ ts
  · intro a n ts us _ _ ih h u hu
    rcases List.mem_cons.1 hu with rfl | hu
    · simpa using ⟨h a (by simp), h n (by simp)⟩
    · exact ih (fun v hv => h v (by simp [hv])) u hu
  · intro a ts us ih h u hu
    rcases List.mem_cons.1 hu with rfl | hu
    · exact h u (by simp)
    · exact ih (fun v hv => h v (by simp [hv])) u hu

theorem isLine_of_tokens {ts : List BindToken} (h : tokens t = .ok ts) (ht : IsLine t) :
    ∀ u ∈ ts, IsLine u.text := by
  obtain ⟨found, hscan, rfl, -⟩ := tokens_eq_ok_iff.1 h
  exact isLine_joinNots (isLine_of_scan hscan ht)

end BindToken

namespace BindRule

theorem isLine_spell {ts : List BindToken} (h : ∀ u ∈ ts, IsLine u.text) : IsLine (spell ts) := by
  refine IsLine.join (by decide) fun p hp => ?_
  obtain ⟨u, hu, rfl⟩ := List.mem_map.1 hp
  exact h u hu

theorem IsCondition.isLine {ts : List BindToken} {c : Condition} (h : IsCondition ts (condition c))
    (hts : ∀ u ∈ ts, IsLine u.text) : IsLine c.value.text := by
  cases h with
  | @intro name comparison values k op v hname hop hne hvalues hkeyword hvalue =>
      refine Value.isLine_of_parseBind hvalue (isLine_spell fun u hu => hts u ?_)
      exact List.mem_cons_of_mem name (List.mem_cons_of_mem comparison hu)

theorem isLine_values_of_parseWith {r : BindRule} (h : parseWith limit t = .ok r)
    (ht : IsLine t) : ∀ c ∈ r.conditions, IsLine c.value.text := by
  obtain ⟨ts, htokens, hrule⟩ := isRule_of_parseWith h
  have hts := BindToken.isLine_of_tokens htokens ht
  intro c hc
  obtain ⟨us, hsubset, hus⟩ := hrule.leaves.exists_isCondition c.bare (List.mem_map_of_mem hc)
  exact hus.isLine fun u hu => hts u (hsubset hu)

end BindRule

theorem Condition.isLine_text {c : Condition} (h : IsLine c.value.text) : IsLine c.text := by
  have hfront : IsLine c.front := by
    simpa [front] using ⟨c.keyword.isLine_name, c.op.isLine_symbol⟩
  rw [← List.append_nil c.text, c.text_append]
  simpa using ⟨hfront, h⟩

theorem Piece.isLine_text {p : Piece} (h : ∀ c, p = condition c → IsLine c.value.text) :
    IsLine p.text := by
  rcases p with _ | _ | (_ | _ | _) | c
  case condition => exact Condition.isLine_text (h c rfl)
  all_goals decide

theorem BindRule.isLine_text_of_parseWith {r : BindRule} (h : parseWith limit t = .ok r)
    (ht : IsLine t) : IsLine r.text := by
  rw [← (Statement.rootForm_of_parseWith h).text_pieces]
  refine IsLine.flatMap fun p hp => Piece.isLine_text ?_
  rintro c rfl
  refine isLine_values_of_parseWith h ht c ?_
  rw [← conditions_pieces false r]
  exact Piece.mem_filterMap_condition?.2 hp

theorem Clause.isLine_text {c : Clause} (h : ∀ q ∈ c.quotedTexts, IsLine q) : IsLine c.text := by
  have hquoted : IsLine (Text.join " || ".toList (c.quotedTexts.map Text.quote)) := by
    refine IsLine.join (by decide) fun p hp => ?_
    obtain ⟨q, hq, rfl⟩ := List.mem_map.1 hp
    exact Text.isLine_quote_iff.2 (h q hq)
  simpa [text] using ⟨c.keyword.isLine_name, c.op.isLine_symbol, hquoted⟩

theorem TargetRule.isLine_text_of_parse {r : TargetRule} (h : parse t = .ok r) (ht : IsLine t) :
    IsLine r.text := by
  refine IsLine.flatMap fun c hc => Clause.isLine_text ?_
  exact (isRead_of_parse h c hc).hereditary Text.isLine_isHereditary fun _ => ht.of_isInfix

theorem Permission.isLine_text (p : Permission) : IsLine p.text := by
  have hfront : IsLine p.front := Text.isLine_of_forall fun c hc heq => by
    rcases isAlpha_or_of_mem_front hc with h | h | h <;> simp [heq] at h
  rw [text_eq]
  simpa using hfront

theorem Statement.isLine_text_of_parseWith {s : Statement} (h : parseWith limit t = .ok s)
    (ht : IsLine t) : IsLine s.text := by
  obtain ⟨front, rule, hcut, -, hrule⟩ := parseWith_eq_ok_iff.1 h
  have hbind := BindRule.isLine_text_of_parseWith hrule (ht.trim.cut? hcut).2
  simpa [text] using ⟨s.permission.isLine_text, hbind⟩

theorem Policy.isLine_of_mem_segments (ht : IsLine t) : ∀ s ∈ segments t, IsLine s := by
  intro s hs
  obtain ⟨part, hpart, rfl⟩ := List.mem_map.1 (List.mem_filter.1 hs).1
  exact (ht.splitUnquoted ';' part hpart).trim

theorem Policy.isLine_text_of_parseWith {p : Policy} (h : parseWith limit t = .ok p)
    (ht : IsLine t) : IsLine p.text := by
  obtain ⟨hstatements, -⟩ := parseWith_eq_ok_iff.1 h
  refine IsLine.join (by decide) fun u hu => ?_
  obtain ⟨s, hs, rfl⟩ := List.mem_map.1 hu
  obtain ⟨segment, hsegment, hread⟩ := Outcome.exists_of_mem_right hstatements hs
  exact Statement.isLine_text_of_parseWith hread (isLine_of_mem_segments ht segment hsegment)

namespace Instruction

theorem isLine_of_readLabel {label after : Text} (h : readLabel t = .ok (label, after))
    (ht : IsLine t) : IsLine label ∧ IsLine after := by
  unfold readLabel at h
  split at h
  · cases h
  · rename_i rest hstrip
    have hrest := ht.trimStart.stripFold? hstrip
    split at h
    · cases h
    · rename_i before quoted hopen
      split at h
      · cases h
      · split at h
        · cases h
        · rename_i label' after' hclose
          split at h
          · cases h
          · cases h
            exact (hrest.cutQuote? hopen).2.cutQuote? hclose

theorem isLine_of_readBody {label body : Text} (h : readBody label t = .ok body)
    (ht : IsLine t) : IsLine body := by
  unfold readBody at h
  split at h
  · cases h
  · rename_i rest hstrip
    split at h
    · cases h
    · rename_i statements hlast
      cases h
      exact (ht.trimStart.strip? hstrip).trimEnd.stripLast? hlast

/-- The parts of an instruction that is read from one line are on one line. -/
theorem isLine_parts_of_parseWith {i : Instruction} (h : parseWith limit t = .ok i)
    (ht : IsLine t) : IsLine i.targetText ∧ IsLine i.label ∧ IsLine i.policy.text := by
  obtain ⟨front, behind, targets, after, body, hcut, hstrip, htarget, hlabel, hbody, hpolicy⟩ :=
    parseWith_eq_ok_iff.1 h
  obtain ⟨hfront, hbehind⟩ := ht.trim.cutFold? (by decide) hcut
  have htargets := hfront.trimEnd.stripLast? hstrip
  obtain ⟨hlabelLine, hafter⟩ := isLine_of_readLabel hlabel hbehind
  refine ⟨?_, hlabelLine, Policy.isLine_text_of_parseWith hpolicy (isLine_of_readBody hbody hafter)⟩
  rcases journaledTarget_eq_ok_iff.1 htarget with ⟨-, hnone⟩ | ⟨-, r, hparse, hsome⟩
  · rw [targetText, hnone]
    exact Text.isLine_nil
  · rw [targetText, hsome]
    exact TargetRule.isLine_text_of_parse hparse htargets.trim

theorem isLine_text_of_parseWith {i : Instruction} (h : parseWith limit t = .ok i)
    (ht : IsLine t) : IsLine i.text := by
  obtain ⟨htarget, hlabel, hpolicy⟩ := isLine_parts_of_parseWith h ht
  have hversion : IsLine versionMarker := by decide
  rw [text_eq, behind_eq]
  simpa using ⟨htarget, hversion, hlabel, hpolicy⟩

end Instruction

end DirectoryAccess
