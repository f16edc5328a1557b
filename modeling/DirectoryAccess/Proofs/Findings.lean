import DirectoryAccess.Proofs.Outcome

/-!
# Single faults behind a verdict

A verdict that reports several errors may report verdicts on parts among them.
Laid out flat, it reports the single faults of the parts in order.
-/

namespace DirectoryAccess

namespace Error

mutual

/-- The single faults of an error from left to right. -/
def leaves : Error → List Error
  | several errors => leavesOfAll errors
  | e => [e]

def leavesOfAll : List Error → List Error
  | [] => []
  | e :: es => leaves e ++ leavesOfAll es

end

theorem leaves_several (es : List Error) : leaves (several es) = leavesOfAll es := by
  rw [leaves]

theorem leavesOfAll_append (es fs : List Error) :
    leavesOfAll (es ++ fs) = leavesOfAll es ++ leavesOfAll fs := by
  induction es with
  | nil => rfl
  | cons e es ih => rw [List.cons_append, leavesOfAll, ih, leavesOfAll, List.append_assoc]

/-- The errors come down to these single faults, and hold nothing if there are none. -/
structure ComeTo (es faults : List Error) : Prop where
  leaves : leavesOfAll es = faults
  nil : faults = [] → es = []

namespace ComeTo

variable {es fs faults others : List Error}

theorem none : ComeTo [] [] :=
  ⟨rfl, fun _ => rfl⟩

theorem single {e : Error} (h : e.leaves = [e]) : ComeTo [e] [e] := by
  refine ⟨?_, fun hnil => hnil⟩
  rw [leavesOfAll, leavesOfAll, h, List.append_nil]

theorem ite_single (b : Bool) {e : Error} (h : e.leaves = [e]) :
    ComeTo (if b then [] else [e]) (if b then [] else [e]) := by
  cases b with
  | true => exact none
  | false => exact single h

theorem append (hes : ComeTo es faults) (hfs : ComeTo fs others) :
    ComeTo (es ++ fs) (faults ++ others) := by
  refine ⟨?_, fun hnil => ?_⟩
  · rw [leavesOfAll_append, hes.leaves, hfs.leaves]
  · obtain ⟨hfaults, hothers⟩ := List.append_eq_nil_iff.1 hnil
    rw [hes.nil hfaults, hfs.nil hothers, List.append_nil]

theorem flatMap {α : Type} {f g : α → List Error} {as : List α}
    (h : ∀ a ∈ as, ComeTo (f a) (g a)) : ComeTo (as.flatMap f) (as.flatMap g) := by
  induction as with
  | nil => exact none
  | cons a as ih =>
      rw [List.flatMap_cons, List.flatMap_cons]
      exact (h a (by simp)).append (ih fun b hb => h b (List.mem_cons_of_mem a hb))

/-- A verdict comes to what the errors that it reports come to. -/
theorem verdict (h : ComeTo es faults) : ComeTo (findings (verdict es)) faults := by
  match es with
  | [] => exact h
  | [e] => exact h
  | e :: e' :: es =>
      have hseveral : findings (Error.verdict (e :: e' :: es)) = [several (e :: e' :: es)] := rfl
      refine ⟨?_, fun hnil => ?_⟩
      · rw [hseveral, leavesOfAll, leavesOfAll, List.append_nil, leaves_several]
        exact h.leaves
      · cases h.nil hnil

theorem eq_ok_iff {x : Except Error Unit} (h : ComeTo (findings x) faults) :
    x = .ok () ↔ faults = [] := by
  constructor
  · rintro rfl
    exact h.leaves.symm
  · intro hnil
    have hnone := h.nil hnil
    cases x with
    | ok _ => rfl
    | error e => cases hnone

end ComeTo

end Error

end DirectoryAccess
