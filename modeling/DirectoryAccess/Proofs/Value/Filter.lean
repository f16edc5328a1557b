import DirectoryAccess.Proofs.Text.Escape
import DirectoryAccess.Proofs.Value.FilterGrammar

/-!
# Escapes in search filters

In the grammar of filters a backslash stands only together with the character
that it escapes.  So nothing is left to escape behind any phrase, nor behind a
filter that was read.
-/

namespace DirectoryAccess

namespace Text

/-- The rest is the end of the text, and what stands in front of it escapes nothing in the rest. -/
def LeavesUnescaped (t rest : Text) : Prop :=
  ∃ s, t = s ++ rest ∧ escaping false s = false

namespace LeavesUnescaped

variable {t u v : Text}

theorem refl (t : Text) : LeavesUnescaped t t :=
  ⟨[], rfl, rfl⟩

theorem trans (htu : LeavesUnescaped t u) (huv : LeavesUnescaped u v) : LeavesUnescaped t v := by
  obtain ⟨r, rfl, hr⟩ := htu
  obtain ⟨s, rfl, hs⟩ := huv
  refine ⟨r ++ s, (List.append_assoc r s v).symm, ?_⟩
  rw [escaping_append, hr, hs]

theorem of_append {s : Text} (hs : '\\' ∉ s) (t : Text) : LeavesUnescaped (s ++ t) t :=
  ⟨s, rfl, escaping_of_not_mem hs⟩

theorem of_cons {c : Char} (hc : c ≠ '\\') (t : Text) : LeavesUnescaped (c :: t) t :=
  of_append (s := [c]) (by simpa using hc.symm) t

theorem escaped (c : Char) (t : Text) : LeavesUnescaped ('\\' :: c :: t) t :=
  ⟨['\\', c], rfl, by simp [escaping]⟩

end LeavesUnescaped

end Text

namespace SearchFilter

open Text (LeavesUnescaped)

theorem IsGap.leavesUnescaped {gap : Text} (h : IsGap gap) (rest : Text) :
    LeavesUnescaped (gap ++ rest) rest :=
  .of_append (fun hmem => absurd (h '\\' hmem) (by decide)) rest

theorem IsAttribute.leavesUnescaped {attr : Text} (h : IsAttribute attr) (rest : Text) :
    LeavesUnescaped (attr ++ rest) rest :=
  .of_append (fun hmem => absurd (h.2 '\\' hmem) (by decide)) rest

theorem leavesUnescaped_comparison {comparison : Text} (h : comparison ∈ comparisons)
    (rest : Text) : LeavesUnescaped (comparison ++ rest) rest := by
  refine .of_append ?_ rest
  revert comparison
  decide

theorem IsAssertionValue.leavesUnescaped {value : Text} (h : IsAssertionValue value)
    (rest : Text) : LeavesUnescaped (value ++ rest) rest := by
  induction h with
  | nil => exact .refl rest
  | plain hc _ ih => exact (LeavesUnescaped.of_cons hc.2.2 _).trans ih
  | escaped c _ ih => exact (LeavesUnescaped.escaped c _).trans ih

theorem Derives.leavesUnescaped {p : Phrase} {t : Text} (h : Derives p t) (rest : Text) :
    LeavesUnescaped (t ++ rest) rest := by
  induction h generalizing rest with
  | @filter before content after hbefore hcontent hafter ih =>
      have htext : '(' :: (before ++ (content ++ (after ++ [')']))) ++ rest =
          '(' :: (before ++ (content ++ (after ++ ')' :: rest))) := by simp
      have hopen : LeavesUnescaped ('(' :: (before ++ (content ++ (after ++ ')' :: rest))))
          (content ++ (after ++ ')' :: rest)) :=
        (LeavesUnescaped.of_cons (by decide) _).trans (hbefore.leavesUnescaped _)
      have hclose : LeavesUnescaped (after ++ ')' :: rest) rest :=
        (hafter.leavesUnescaped _).trans (.of_cons (by decide) rest)
      rw [htext]
      exact (hopen.trans (ih _)).trans hclose
  | group hmark h ih =>
      refine (LeavesUnescaped.of_cons ?_ _).trans (ih rest)
      rcases hmark with rfl | rfl <;> decide
  | negation hgap h ih =>
      rw [List.cons_append, List.append_assoc]
      have hslash : '!' ≠ '\\' := by decide
      exact (LeavesUnescaped.of_cons hslash _).trans ((hgap.leavesUnescaped _).trans (ih rest))
  | assertion hattribute hcomparison hvalue =>
      rw [List.append_assoc, List.append_assoc]
      exact (hattribute.leavesUnescaped _).trans
        ((leavesUnescaped_comparison hcomparison _).trans (hvalue.leavesUnescaped rest))
  | last hgap h ih =>
      rw [List.append_assoc]
      exact (hgap.leavesUnescaped _).trans (ih rest)
  | more hgap h hothers ih ihothers =>
      rw [List.append_assoc, List.append_assoc]
      exact (hgap.leavesUnescaped _).trans ((ih _).trans (ihothers rest))

/-- A filter that was read does not end in a backslash that escapes what follows. -/
theorem escaping_text_of_read {t : Text} {f : SearchFilter} (h : read t = .ok f) :
    Text.escaping false f.text = false := by
  obtain ⟨s, hs, hescape⟩ := (derives_of_read h).leavesUnescaped []
  rw [List.append_nil, List.append_nil] at hs
  rw [hs, hescape]

end SearchFilter

end DirectoryAccess
