import DirectoryAccess.Proofs.BindRule.Grammar

/-!
# The nesting of parentheses

How deep parentheses nest is read off the tokens, whatever they derive.  A rule
that is derived under some limit is derived under exactly the limits that are
not below the nesting of its tokens.
-/

namespace DirectoryAccess

namespace BindToken

def depthBehind (t : BindToken) (depth : Nat) : Nat :=
  match t.kind with
  | .openParen => depth + 1
  | .closeParen => depth - 1
  | _ => depth

/-- The greatest depth of parentheses that tokens reach from the given one. -/
def deepest (depth : Nat) : List BindToken → Nat
  | [] => depth
  | t :: ts => max depth (deepest (t.depthBehind depth) ts)

def nesting (ts : List BindToken) : Nat :=
  deepest 0 ts

theorem le_deepest (depth : Nat) (ts : List BindToken) : depth ≤ deepest depth ts := by
  cases ts with
  | nil => exact Nat.le_refl depth
  | cons t ts => exact Nat.le_max_left ..

/-- The tokens close every parenthesis that they open and nest them `height` deep. -/
def Nests (height : Nat) (ts : List BindToken) : Prop :=
  ∀ depth rest, deepest depth (ts ++ rest) = max (depth + height) (deepest depth rest)

namespace Nests

variable {h k : Nat} {ts us : List BindToken}

theorem nil : Nests 0 [] := by
  intro depth rest
  exact (Nat.max_eq_right (le_deepest depth rest)).symm

theorem append (hts : Nests h ts) (hus : Nests k us) : Nests (max h k) (ts ++ us) := by
  intro depth rest
  rw [List.append_assoc, hts, hus]
  omega

theorem cons {t : BindToken} (ht : ∀ depth, t.depthBehind depth = depth) (hts : Nests h ts) :
    Nests h (t :: ts) := by
  intro depth rest
  rw [List.cons_append, deepest, ht, hts]
  omega

theorem enclosed {opening closing : BindToken} (hopen : opening.kind = .openParen)
    (hclose : closing.kind = .closeParen) (hts : Nests h ts) :
    Nests (h + 1) (opening :: ts ++ [closing]) := by
  intro depth rest
  have hbehind : opening.depthBehind depth = depth + 1 := by simp [depthBehind, hopen]
  have hback : closing.depthBehind (depth + 1) = depth := by simp [depthBehind, hclose]
  rw [List.append_assoc, List.cons_append, deepest, hbehind, hts, List.singleton_append, deepest,
    hback]
  have := le_deepest depth rest
  omega

theorem nesting (hts : Nests h ts) : BindToken.nesting ts = h := by
  have hall := hts 0 []
  rw [List.append_nil, deepest] at hall
  rw [BindToken.nesting, hall]
  omega

end Nests

end BindToken

namespace BindRule

open BindToken

theorem depthBehind_of_not_endsCondition {t : BindToken} (h : endsCondition t = false)
    (depth : Nat) : t.depthBehind depth = depth := by
  cases hkind : t.kind <;> simp [endsCondition, isConnective, depthBehind, hkind] at h ⊢

theorem IsCondition.nests {ts : List BindToken} {r : BindRule} (h : IsCondition ts r) :
    Nests 0 ts := by
  have hinside := h.not_endsCondition
  clear h
  induction ts with
  | nil => exact .nil
  | cons t ts ih =>
      exact .cons (depthBehind_of_not_endsCondition (hinside t (by simp)))
        (ih fun u hu => hinside u (List.mem_cons_of_mem t hu))

/-- The tokens derive `r` under the limit `n`, and so they do under every limit from their height. -/
def HasHeight (Derives : Nat → List BindToken → Prop) (n : Nat) (ts : List BindToken) : Prop :=
  ∃ h, h ≤ n ∧ Nests h ts ∧ ∀ m, h ≤ m → Derives m ts

theorem Others.hasHeight {n : Nat}
    (hoperand : ∀ ts r, IsOperand n ts r → HasHeight (fun m ts => IsOperand m ts r) n ts)
    {ts : List BindToken} {os : List (Connective × BindRule)} (h : Others (IsOperand n) ts os) :
    HasHeight (fun m ts => Others (IsOperand m) ts os) n ts := by
  induction h with
  | nil => exact ⟨0, Nat.zero_le n, .nil, fun m _ => .nil⟩
  | @cons t c ts us r os ht hr hos ih =>
      obtain ⟨h, hle, hnests, hderives⟩ := hoperand ts r hr
      obtain ⟨k, kle, knests, kderives⟩ := ih
      have hbehind (depth : Nat) : t.depthBehind depth = depth := by
        cases c <;> simp [depthBehind, ht, kindOf]
      refine ⟨max h k, Nat.max_le.2 ⟨hle, kle⟩, (hnests.cons hbehind).append knests, ?_⟩
      intro m hm
      exact .cons ht (hderives m (by omega)) (kderives m (by omega))

theorem Level.hasHeight {n : Nat}
    (hoperand : ∀ ts r, IsOperand n ts r → HasHeight (fun m ts => IsOperand m ts r) n ts)
    {ts : List BindToken} {r : BindRule} (h : Level (IsOperand n) ts r) :
    HasHeight (fun m ts => Level (IsOperand m) ts r) n ts := by
  obtain ⟨us, vs, first, os, rfl, hfirst, hos, hjoined⟩ := level_iff.1 h
  obtain ⟨h, hle, hnests, hderives⟩ := hoperand us first hfirst
  obtain ⟨k, kle, knests, kderives⟩ := hos.hasHeight hoperand
  refine ⟨max h k, Nat.max_le.2 ⟨hle, kle⟩, hnests.append knests, ?_⟩
  intro m hm
  exact level_iff.2 ⟨us, vs, first, os, rfl, hderives m (by omega), kderives m (by omega), hjoined⟩

theorem IsOperand.hasHeight (n : Nat) (ts : List BindToken) (r : BindRule)
    (h : IsOperand n ts r) : HasHeight (fun m ts => IsOperand m ts r) n ts := by
  induction n generalizing ts r with
  | zero => exact ⟨0, Nat.le_refl 0, IsCondition.nests h, fun m _ => .of_condition h⟩
  | succ n ih =>
      rcases h with h | h
      · exact ⟨0, Nat.zero_le _, h.nests, fun m _ => .of_condition h⟩
      · cases h with
        | @intro opening closing us inner hopen hclose hr =>
            obtain ⟨h, hle, hnests, hderives⟩ := Level.hasHeight ih hr
            refine ⟨h + 1, Nat.succ_le_succ hle, hnests.enclosed hopen hclose, ?_⟩
            intro m hm
            obtain ⟨m, rfl⟩ := Nat.exists_eq_add_of_lt (Nat.lt_of_succ_le hm)
            exact Or.inr (.intro hopen hclose (hderives _ (by omega)))

/-- Deriving under a limit is deriving at all with a nesting within the limit. -/
theorem isRule_iff {n : Nat} {ts : List BindToken} {r : BindRule} :
    IsRule n ts r ↔ nesting ts ≤ n ∧ ∃ m, IsRule m ts r := by
  constructor
  · intro h
    obtain ⟨h', hle, hnests, -⟩ := Level.hasHeight (IsOperand.hasHeight n) h
    exact ⟨hnests.nesting.trans_le hle, n, h⟩
  · rintro ⟨hle, m, h⟩
    obtain ⟨h', -, hnests, hderives⟩ := Level.hasHeight (IsOperand.hasHeight m) h
    exact hderives n (hnests.nesting ▸ hle)

end BindRule

end DirectoryAccess
