import DirectoryAccess.Listing
import DirectoryAccess.Proofs.Text.Trim

/-!
# Gathering line by line

A physical line is skipped, goes on with the logical line that is open, or opens one.
All that is known of the lines that are gathered follows from these three steps.
-/

namespace DirectoryAccess

namespace Listing

/-- From the open line, a physical line closes some and leaves one open, or none. -/
inductive Step (number : Nat) (line : Text) :
    Option LogicalLine → List LogicalLine → Option LogicalLine → Prop where
  | skipped (h : isSkipped line = true) (current : Option LogicalLine) :
      Step number line current current.toList none
  | joined (h : isSkipped line = false) {more : Text} (hline : line = ' ' :: more)
      (c : LogicalLine) : Step number line (some c) [] (some { c with text := c.text ++ more })
  | opened (h : isSkipped line = false) {current : Option LogicalLine}
      (hline : line.head? ≠ some ' ' ∨ current = none) :
      Step number line current current.toList (some ⟨number, opening line⟩)

theorem gather_of_step {number : Nat} {line : Text} {current next : Option LogicalLine}
    {closed : List LogicalLine} (h : Step number line current closed next) (lines : List Text) :
    gather current number (line :: lines) = closed ++ gather next (number + 1) lines := by
  rw [gather.eq_def]
  dsimp only
  cases h with
  | skipped h => rw [if_pos h]
  | joined h hline c =>
      subst hline
      rw [if_neg (by simp [h])]
      rfl
  | opened h hline =>
      rw [if_neg (by simp [h])]
      split
      · simp at hline
      · rfl

theorem exists_step (number : Nat) (line : Text) (current : Option LogicalLine) :
    ∃ closed next, Step number line current closed next := by
  cases h : isSkipped line with
  | true => exact ⟨_, _, .skipped h current⟩
  | false =>
      by_cases hhead : line.head? = some ' '
      · obtain ⟨more, hline⟩ := List.head?_eq_some_iff.1 hhead
        cases current with
        | none => exact ⟨_, _, .opened h (Or.inr rfl)⟩
        | some c => exact ⟨_, _, .joined h hline c⟩
      · exact ⟨_, _, .opened h (Or.inl hhead)⟩

/-- Only the line that was open is closed. -/
theorem Step.mem_of_mem_closed {number : Nat} {line : Text} {current next : Option LogicalLine}
    {closed : List LogicalLine} (h : Step number line current closed next) {l : LogicalLine}
    (hl : l ∈ closed) : l ∈ current := by
  cases h with
  | skipped => exact Option.mem_toList.1 hl
  | joined => cases hl
  | opened => exact Option.mem_toList.1 hl

/-- What opening gives and joining keeps holds of every line that is gathered. -/
theorem forall_mem_gather {P : LogicalLine → Prop} {lines : List Text} {number : Nat}
    {current : Option LogicalLine}
    (opened : ∀ k line, lines[k]? = some line → isSkipped line = false →
      P ⟨number + k, opening line⟩)
    (joined : ∀ l more, ' ' :: more ∈ lines → P l → P { l with text := l.text ++ more })
    (hcurrent : ∀ l ∈ current, P l) : ∀ l ∈ gather current number lines, P l := by
  induction lines generalizing current number with
  | nil =>
      intro l hl
      exact hcurrent l (Option.mem_toList.1 hl)
  | cons line lines ih =>
      obtain ⟨closed, next, hstep⟩ := exists_step number line current
      have hnext : ∀ l ∈ next, P l := by
        cases hstep with
        | skipped => simp
        | joined h hline c =>
            rintro _ ⟨⟩
            exact joined c _ (by simp [hline]) (hcurrent c rfl)
        | opened h hline =>
            rintro _ ⟨⟩
            exact opened 0 line rfl h
      intro l hl
      rw [gather_of_step hstep] at hl
      rcases List.mem_append.1 hl with hl | hl
      · exact hcurrent l (hstep.mem_of_mem_closed hl)
      · refine ih (fun k line hk h => ?_) (fun l more hmem => joined l more ?_) hnext l hl
        · rw [Nat.add_assoc, Nat.add_comm 1]
          exact opened (k + 1) line hk h
        · exact List.mem_cons_of_mem line hmem

/-- No logical line is numbered before the physical lines from which it is gathered. -/
theorem le_number_of_mem_gather (least : Nat) (lines : List Text) (current : Option LogicalLine)
    (number : Nat) (hcurrent : ∀ l ∈ current.toList, least ≤ l.number) (hleast : least ≤ number) :
    ∀ l ∈ gather current number lines, least ≤ l.number :=
  forall_mem_gather (fun k _ _ _ => Nat.le_add_right_of_le hleast) (fun _ _ _ h => h)
    (by simpa using hcurrent)

/-- What is left open keeps its number, or has closed what was open and has the number at hand. -/
theorem Step.number_next {number : Nat} {line : Text} {current next : Option LogicalLine}
    {closed : List LogicalLine} (h : Step number line current closed next)
    (hcurrent : ∀ l ∈ current, l.number < number) :
    (∀ l ∈ next, l.number ≤ number) ∧ (closed = [] ∨ ∀ l ∈ next, number ≤ l.number) := by
  cases h with
  | skipped => simp
  | joined h hline c => simpa using (hcurrent c rfl).le
  | opened => simp

/-- Lines are gathered in the order of their numbers. -/
theorem pairwise_gather {lines : List Text} {current : Option LogicalLine} {number : Nat}
    (hcurrent : ∀ l ∈ current, l.number < number) :
    (gather current number lines).Pairwise fun k l => k.number < l.number := by
  induction lines generalizing current number with
  | nil => cases current <;> simp [gather]
  | cons line lines ih =>
      obtain ⟨closed, next, hstep⟩ := exists_step number line current
      obtain ⟨hnext, hclosed⟩ := hstep.number_next hcurrent
      rw [gather_of_step hstep, List.pairwise_append]
      refine ⟨?_, ih fun l hl => Nat.lt_succ_of_le (hnext l hl), fun k hk l hl => ?_⟩
      · cases hstep with
        | joined => exact .nil
        | skipped | opened => cases current <;> simp
      · have hlower : number ≤ l.number := by
          refine le_number_of_mem_gather number lines next (number + 1) ?_ (Nat.le_succ _) l hl
          rcases hclosed with rfl | hclosed
          · cases hk
          · simpa using hclosed
        exact (hcurrent k (hstep.mem_of_mem_closed hk)).trans_le hlower

def later (k : Nat) (l : LogicalLine) : LogicalLine :=
  { l with number := l.number + k }

theorem Step.map_later {number : Nat} {line : Text} {current next : Option LogicalLine}
    {closed : List LogicalLine} (h : Step number line current closed next) (k : Nat) :
    Step (number + k) line (current.map (later k)) (closed.map (later k)) (next.map (later k)) := by
  cases h with
  | skipped h => rw [← Option.toList_map]; exact .skipped h _
  | joined h hline c => exact .joined h hline (later k c)
  | opened h hline =>
      rw [← Option.toList_map]
      exact .opened h (by simpa using hline)

/-- Under later numbers the same lines are gathered. -/
theorem gather_later (k : Nat) (lines : List Text) (current : Option LogicalLine) (number : Nat) :
    gather (current.map (later k)) (number + k) lines =
      (gather current number lines).map (later k) := by
  induction lines generalizing current number with
  | nil => cases current <;> rfl
  | cons line lines ih =>
      obtain ⟨closed, next, hstep⟩ := exists_step number line current
      rw [gather_of_step hstep, gather_of_step (hstep.map_later k), List.map_append, ← ih,
        Nat.add_right_comm]

/-- A line that is skipped parts what is gathered in front of it from what is gathered behind. -/
theorem gather_append_skipped {line : Text} (h : isSkipped line = true) (above below : List Text)
    (current : Option LogicalLine) (number : Nat) :
    gather current number (above ++ line :: below) =
      gather current number above ++ gather none (number + above.length + 1) below := by
  induction above generalizing current number with
  | nil => exact gather_of_step (.skipped h current) below
  | cons first above ih =>
      obtain ⟨closed, next, hstep⟩ := exists_step number first current
      rw [List.cons_append, gather_of_step hstep, gather_of_step hstep, ih, List.append_assoc,
        List.length_cons, Nat.add_right_comm number, ← Nat.add_assoc]

end Listing

end DirectoryAccess
