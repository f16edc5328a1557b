import DirectoryAccess.Journal
import DirectoryAccess.Proofs.Outcome
import Mathlib.Data.List.Basic

/-!
# Computations that fail

The error of a sequence of steps is that of the first step that fails, so that it
has whatever property the error of each step has that is reached.
-/

namespace DirectoryAccess

namespace Outcome

variable {ε δ α β : Type}

theorem bind_eq_error {x : Except ε α} {f : α → Except ε β} {e : ε} :
    x >>= f = .error e ↔ x = .error e ∨ ∃ a, x = .ok a ∧ f a = .error e := by
  cases x with
  | error d => simp [bind, Except.bind]
  | ok a => simp [bind, Except.bind]

theorem mapError_eq_error {x : Except ε α} {f : ε → δ} {d : δ} :
    x.mapError f = .error d ↔ ∃ e, x = .error e ∧ f e = d := by
  cases x <;> simp [Except.mapError]

/-- The error of a sequence of steps is that of the first step that fails. -/
theorem mapM_eq_error {f : α → Except ε β} {as : List α} {e : ε} :
    as.mapM f = .error e ↔
      ∃ front a rest, as = front ++ a :: rest ∧ (∀ c ∈ front, ∃ b, f c = .ok b) ∧
        f a = .error e := by
  induction as with
  | nil => simp [pure, Except.pure]
  | cons a as ih =>
      rw [List.mapM_cons, bind_eq_error]
      simp only [bind_eq_error, ih, pure, Except.pure, reduceCtorEq, and_false, exists_false,
        or_false]
      constructor
      · rintro (ha | ⟨b, hb, front, c, rest, rfl, hfront, hc⟩)
        · exact ⟨[], a, as, rfl, by simp, ha⟩
        · exact ⟨a :: front, c, rest, rfl, by simpa using ⟨⟨b, hb⟩, hfront⟩, hc⟩
      · rintro ⟨front, c, rest, hsplit, hfront, hc⟩
        cases front with
        | nil =>
            obtain ⟨rfl, -⟩ := List.cons.inj hsplit
            exact .inl hc
        | cons d front =>
            obtain ⟨rfl, rfl⟩ := List.cons.inj hsplit
            obtain ⟨b, hb⟩ := hfront a (by simp)
            exact .inr ⟨b, hb, front, c, rest, rfl,
              fun d hd => hfront d (List.mem_cons_of_mem a hd), hc⟩

/-- A sequence of steps gives a result if each step does. -/
theorem exists_mapM_iff {f : α → Except ε β} {as : List α} :
    (∃ bs, as.mapM f = .ok bs) ↔ ∀ a ∈ as, ∃ b, f a = .ok b := by
  constructor
  · rintro ⟨bs, hbs⟩ a ha
    obtain ⟨b, -, hb⟩ := exists_of_mem_left (mapM_eq_ok.1 hbs) ha
    exact ⟨b, hb⟩
  · intro hall
    cases hsteps : as.mapM f with
    | ok bs => exact ⟨bs, rfl⟩
    | error e =>
        obtain ⟨front, a, rest, rfl, -, ha⟩ := mapM_eq_error.1 hsteps
        obtain ⟨b, hb⟩ := hall a (by simp)
        rw [hb] at ha
        cases ha

def FailsOnlyWith (P : ε → Prop) (x : Except ε α) : Prop :=
  ∀ e, x = .error e → P e

namespace FailsOnlyWith

variable {P : ε → Prop} {x : Except ε α}

theorem ok (a : α) : FailsOnlyWith P (.ok a) := by
  rintro e ⟨⟩

theorem error {e : ε} (h : P e) : FailsOnlyWith P (.error e : Except ε α) := by
  rintro e ⟨⟩
  exact h

theorem bind {f : α → Except ε β} (hx : FailsOnlyWith P x)
    (hf : ∀ a, x = .ok a → FailsOnlyWith P (f a)) : FailsOnlyWith P (x >>= f) := by
  cases x with
  | error e => exact .error (hx e rfl)
  | ok a => exact hf a rfl

theorem result_bind {x : Journaled ε α} {f : α → Journaled ε β} (hx : FailsOnlyWith P x.result)
    (hf : ∀ a, x.result = .ok a → FailsOnlyWith P (f a).result) :
    FailsOnlyWith P (x >>= f).result := by
  rw [Journaled.result_bind]
  exact hx.bind hf

theorem map {f : α → β} (hx : FailsOnlyWith P x) : FailsOnlyWith P (x.map f) := by
  cases x with
  | error e => exact .error (hx e rfl)
  | ok a => exact .ok (f a)

theorem mapError {Q : δ → Prop} {f : ε → δ} (hx : FailsOnlyWith P x) (hf : ∀ e, P e → Q (f e)) :
    FailsOnlyWith Q (x.mapError f) := by
  cases x with
  | error e => exact .error (hf e (hx e rfl))
  | ok a => exact .ok a

theorem mapM {f : α → Except ε β} {as : List α} (h : ∀ a ∈ as, FailsOnlyWith P (f a)) :
    FailsOnlyWith P (as.mapM f) := by
  induction as with
  | nil => exact .ok []
  | cons a as ih =>
      rw [List.mapM_cons]
      refine .bind (h a (by simp)) fun b _ => ?_
      exact .bind (ih fun c hc => h c (List.mem_cons_of_mem a hc)) fun bs _ => .ok (b :: bs)

end FailsOnlyWith

end Outcome

end DirectoryAccess
