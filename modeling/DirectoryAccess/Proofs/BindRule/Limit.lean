import DirectoryAccess.Proofs.BindRule.Derived

/-!
# The limit of the nesting

A text is read under exactly the limits that are not below its nesting, and the
rule that it reads as is written with parentheses nested no deeper than there.
Reading only drops parentheses, those doubled and those around a lone condition,
and writing adds none.
-/

namespace DirectoryAccess

namespace BindRule

open BindToken

/-- How deep the parentheses nest that a rule is written with, those inside values left aside. -/
def writtenNesting (r : BindRule) : Nat :=
  BindToken.nesting (spelled (r.pieces false))

/-- The pieces nest their parentheses no deeper than the tokens do theirs. -/
def IsNoDeeper (ts : List BindToken) (ps : List Piece) : Prop :=
  ∃ h k, Nests h ts ∧ Nests k (spelled ps) ∧ k ≤ h

theorem nests_link (c : Connective) : Nests 0 (Piece.link c).tokens := by
  cases c <;> exact .cons (fun _ => rfl) .nil

namespace IsNoDeeper

variable {ts us : List BindToken} {ps qs : List Piece}

theorem nil : IsNoDeeper [] [] :=
  ⟨0, 0, .nil, .nil, Nat.le_refl 0⟩

theorem append (hts : IsNoDeeper ts ps) (hus : IsNoDeeper us qs) :
    IsNoDeeper (ts ++ us) (ps ++ qs) := by
  obtain ⟨h, k, hnests, knests, hle⟩ := hts
  obtain ⟨h', k', hnests', knests', hle'⟩ := hus
  refine ⟨max h h', max k k', hnests.append hnests', ?_, by omega⟩
  rw [spelled_append]
  exact knests.append knests'

/-- A connective adds no parenthesis. -/
theorem link {t : BindToken} {c : Connective} (ht : t.kind = kindOf c) (d : Connective)
    (hts : IsNoDeeper ts ps) : IsNoDeeper (t :: ts) (.link d :: ps) := by
  obtain ⟨h, k, hnests, knests, hle⟩ := hts
  have hbehind (depth : Nat) : t.depthBehind depth = depth := by
    cases c <;> simp [depthBehind, ht, kindOf]
  refine ⟨h, max 0 k, hnests.cons hbehind, ?_, by omega⟩
  rw [spelled_cons]
  exact (nests_link d).append knests

theorem nesting_le (hts : IsNoDeeper ts ps) :
    BindToken.nesting (spelled ps) ≤ BindToken.nesting ts := by
  obtain ⟨h, k, hnests, knests, hle⟩ := hts
  rw [hnests.nesting, knests.nesting]
  exact hle

section Enclosed

variable {opening closing : BindToken}
variable (hopen : opening.kind = .openParen) (hclose : closing.kind = .closeParen)

include hopen hclose

theorem enclosed (hts : IsNoDeeper ts ps) :
    IsNoDeeper (opening :: ts ++ [closing]) (Piece.enclosed true ps) := by
  obtain ⟨h, k, hnests, knests, hle⟩ := hts
  refine ⟨h + 1, k + 1, hnests.enclosed hopen hclose, ?_, Nat.succ_le_succ hle⟩
  rw [Piece.enclosed, if_pos rfl, List.cons_append, spelled_cons, spelled_append]
  exact knests.enclosed rfl rfl

theorem dropped (hts : IsNoDeeper ts ps) : IsNoDeeper (opening :: ts ++ [closing]) ps := by
  obtain ⟨h, k, hnests, knests, hle⟩ := hts
  exact ⟨h + 1, k, hnests.enclosed hopen hclose, knests, Nat.le_succ_of_le hle⟩

end Enclosed

end IsNoDeeper

theorem IsCondition.isNoDeeper {ts : List BindToken} {r : BindRule} (h : IsCondition ts r) :
    IsNoDeeper ts (r.pieces true) := by
  have hnests := h.nests
  cases h with
  | intro =>
      refine ⟨0, 0, hnests, ?_, Nat.le_refl 0⟩
      exact .cons (fun _ => rfl) (.cons (fun _ => rfl) (.cons (fun _ => rfl) .nil))

section Level

variable {n : Nat} {ts : List BindToken}
variable (hoperand : ∀ ts r, IsOperand n ts r → IsNoDeeper ts (r.pieces true))

include hoperand

theorem Alternatives.isNoDeeper {rs : List BindRule} (h : Alternatives (IsOperand n) ts rs) :
    IsNoDeeper ts (linkedPieces .or rs) := by
  induction h with
  | nil => exact .nil
  | @or t ts us r rs ht hr hrs ih => exact ((hoperand ts r hr).link (c := .or) ht _).append ih

theorem Conjuncts.isNoDeeper {rs : List BindRule} (h : Conjuncts (IsOperand n) ts rs) :
    IsNoDeeper ts (linkedPieces .and rs) := by
  induction h with
  | nil => exact .nil
  | @and t ts us r rs ht hr hrs ih => exact ((hoperand ts r hr).link (c := .and) ht _).append ih
  | @andNot t ts us r rs ht hr hrs ih =>
      exact ((hoperand ts r hr).link (c := .andNot) ht _).append ih

theorem Level.isNoDeeper {r : BindRule} (h : Level (IsOperand n) ts r) :
    IsNoDeeper ts (r.pieces false) := by
  cases h with
  | single hr =>
      rw [← hr.operandForm.pieces_eq true]
      exact hoperand ts r hr
  | @disjunction ts us r rs hr hrs hne =>
      have hall := (hoperand ts r hr).append (hrs.isNoDeeper hoperand)
      rwa [pieces, linkedPieces, List.cons_append, List.tail_cons, Bool.or_false, Piece.enclosed,
        if_neg Bool.false_ne_true]
  | @conjunction ts us r rs hr hrs hne =>
      have hall := (hoperand ts r hr).append (hrs.isNoDeeper hoperand)
      rwa [pieces, linkedPieces, List.cons_append, List.tail_cons, Bool.or_false, Piece.enclosed,
        if_neg Bool.false_ne_true]

end Level

theorem IsOperand.isNoDeeper {n : Nat} (ts : List BindToken) (r : BindRule)
    (h : IsOperand n ts r) : IsNoDeeper ts (r.pieces true) := by
  induction n generalizing ts r with
  | zero => exact IsCondition.isNoDeeper h
  | succ n ih =>
      rcases h with h | h
      · exact h.isNoDeeper
      · cases h with
        | @intro opening closing ts inner hopen hclose hr =>
            have hlevel := Level.isNoDeeper ih hr
            rcases (IsRule.rootForm hr).spelled_inParens true with ⟨heq, hform⟩ | hspelled
            · rw [heq, hform.pieces_eq]
              exact hlevel.dropped hopen hclose
            · obtain ⟨h, k, hnests, knests, hle⟩ := hlevel.enclosed hopen hclose
              exact ⟨h, k, hnests, hspelled ▸ knests, hle⟩

theorem IsRule.writtenNesting_le {n : Nat} {ts : List BindToken} {r : BindRule}
    (h : IsRule n ts r) : r.writtenNesting ≤ BindToken.nesting ts :=
  (Level.isNoDeeper IsOperand.isNoDeeper h).nesting_le

variable {limit : Nat} {t : Text} {r : BindRule}

/-- A rule is read under exactly the limits that are not below the nesting of the text. -/
theorem parseWith_eq_ok_iff_nesting_le (h : parseWith limit t = .ok r) (other : Nat) :
    parseWith other t = .ok r ↔ nesting t ≤ other := by
  obtain ⟨ts, hts, hrule⟩ := isRule_of_parseWith h
  rw [nesting, hts]
  constructor
  · intro hother
    obtain ⟨us, hus, hrule'⟩ := isRule_of_parseWith hother
    obtain rfl : ts = us := Except.ok.inj (hts.symm.trans hus)
    exact (isRule_iff.1 hrule').1
  · intro hle
    exact parseWith_of_isRule hts (isRule_iff.2 ⟨hle, limit, hrule⟩)

theorem nesting_le_of_parseWith (h : parseWith limit t = .ok r) : nesting t ≤ limit :=
  (parseWith_eq_ok_iff_nesting_le h limit).1 h

theorem parseWith_mono {other : Nat} (h : parseWith limit t = .ok r) (hle : limit ≤ other) :
    parseWith other t = .ok r :=
  (parseWith_eq_ok_iff_nesting_le h other).2 ((nesting_le_of_parseWith h).trans hle)

theorem writtenNesting_le_of_parseWith (h : parseWith limit t = .ok r) :
    r.writtenNesting ≤ nesting t := by
  obtain ⟨ts, hts, hrule⟩ := isRule_of_parseWith h
  rw [nesting, hts]
  exact hrule.writtenNesting_le

end BindRule

end DirectoryAccess
