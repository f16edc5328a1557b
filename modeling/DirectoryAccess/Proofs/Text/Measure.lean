import DirectoryAccess.Distinct
import DirectoryAccess.Proofs.Text.Cut
import DirectoryAccess.Proofs.Text.Split
import Mathlib.Algebra.GroupWithZero.Nat
import Mathlib.Algebra.Order.BigOperators.Group.List
import Mathlib.Algebra.Order.Group.Nat

/-!
# Additive measures of text

Readers take text apart at blanks, bars, commas and the like, and leave some of
the parts out; printers put parts together with such characters again.  What is
counted without regard to these characters can only get less on the way.  Two
measures are of this kind: the number of characters of comparison operators, and
the number of double quotes that are not escaped.
-/

namespace DirectoryAccess

namespace Text

def isComparison (c : Char) : Bool :=
  c == '=' || c == '!' || c == '<' || c == '>'

/-- The characters that no measure counts: no quote, no backslash and no comparison. -/
def isPlain (c : Char) : Bool :=
  !(c == '"' || c == '\\' || isComparison c)

/-- A measure that adds up over the parts of a text between plain characters. -/
structure IsMeasure (f : Text → Nat) : Prop where
  nil : f [] = 0
  parted {c : Char} : isPlain c = true → ∀ s t, f (s ++ c :: t) = f s + f t

def comparisons (t : Text) : Nat :=
  t.countP isComparison

/-- The number of double quotes that are not escaped, given whether the first character is. -/
def openQuotes (escaped : Bool) : Text → Nat
  | [] => 0
  | c :: cs => (if !escaped && c == '"' then 1 else 0) + openQuotes (!escaped && c == '\\') cs

theorem comparisons_append (s t : Text) :
    comparisons (s ++ t) = comparisons s + comparisons t :=
  List.countP_append

theorem comparisons_isMeasure : IsMeasure comparisons where
  nil := rfl
  parted {c} hc s t := by
    have hcomparison : isComparison c = false := by
      simp only [isPlain, Bool.not_eq_true', Bool.or_eq_false_iff] at hc
      exact hc.2
    simp [comparisons, hcomparison]

theorem openQuotes_append (e : Bool) (s t : Text) :
    openQuotes e (s ++ t) = openQuotes e s + openQuotes (escaping e s) t := by
  induction s generalizing e with
  | nil => simp [openQuotes]
  | cons c cs ih => simp only [List.cons_append, openQuotes, escaping, ih, Nat.add_assoc]

theorem openQuotes_isMeasure : IsMeasure (openQuotes false) where
  nil := rfl
  parted {c} hc s t := by
    simp only [isPlain, Bool.not_eq_true', Bool.or_eq_false_iff] at hc
    obtain ⟨⟨hquote, hslash⟩, -⟩ := hc
    rw [openQuotes_append, openQuotes, hquote, hslash]
    simp

theorem openQuotes_eq_zero_iff {e : Bool} {t : Text} :
    openQuotes e t = 0 ↔ quotesEscaped e t = true := by
  induction t generalizing e with
  | nil => simp [openQuotes]
  | cons c cs ih =>
      rw [openQuotes, quotesEscaped, Nat.add_eq_zero_iff, ih]
      cases e <;> simp

theorem toLower_eq_self {c : Char} (h : isPlain c = false) : c.toLower = c := by
  simp only [isPlain, isComparison, Bool.not_eq_false', Bool.or_eq_true, beq_iff_eq] at h
  rcases h with (rfl | rfl) | ((rfl | rfl) | rfl) | rfl <;> rfl

theorem isPlain_of_toLower {c : Char} (h : isPlain c.toLower = true) : isPlain c = true := by
  by_contra hc
  rw [Bool.not_eq_true] at hc
  rw [toLower_eq_self hc, hc] at h
  cases h

theorem isPlain_of_isDigit {c : Char} (h : c.isDigit = true) : isPlain c = true := by
  by_contra hc
  rw [Bool.not_eq_true] at hc
  simp only [isPlain, isComparison, Bool.not_eq_false', Bool.or_eq_true, beq_iff_eq] at hc
  rcases hc with (rfl | rfl) | ((rfl | rfl) | rfl) | rfl <;> simp [Char.isDigit] at h

theorem isPlain_of_isAlpha {c : Char} (h : c.isAlpha = true) : isPlain c = true := by
  by_contra hc
  rw [Bool.not_eq_true] at hc
  simp only [isPlain, isComparison, Bool.not_eq_false', Bool.or_eq_true, beq_iff_eq] at hc
  rcases hc with (rfl | rfl) | ((rfl | rfl) | rfl) | rfl <;> simp at h

theorem isPlain_of_mem_ofNat {n : Nat} {c : Char} (h : c ∈ ofNat n) : isPlain c = true :=
  isPlain_of_isDigit (Nat.isDigit_of_mem_toDigits (by decide) (by decide) h)

theorem isPlain_of_isBlank {c : Char} (h : isBlank c = true) : isPlain c = true := by
  by_contra hplain
  simp only [isPlain, isComparison, Bool.not_eq_true', Bool.not_eq_false, Bool.or_eq_true,
    beq_iff_eq] at hplain
  rcases hplain with (rfl | rfl) | ((rfl | rfl) | rfl) | rfl <;> simp [isBlank] at h

namespace IsMeasure

variable {f : Text → Nat} (hf : IsMeasure f)

include hf

theorem cons {c : Char} (hc : isPlain c = true) (t : Text) : f (c :: t) = f t := by
  have hparted := hf.parted hc [] t
  rwa [List.nil_append, hf.nil, Nat.zero_add] at hparted

theorem append_singleton {c : Char} (hc : isPlain c = true) (t : Text) : f (t ++ [c]) = f t := by
  rw [hf.parted hc, hf.nil, Nat.add_zero]

theorem plain_append {s : Text} (hs : ∀ c ∈ s, isPlain c = true) (t : Text) :
    f (s ++ t) = f t := by
  induction s with
  | nil => rfl
  | cons c cs ih =>
      rw [List.cons_append, hf.cons (hs c (by simp)), ih fun d hd => hs d (by simp [hd])]

theorem plain {t : Text} (ht : ∀ c ∈ t, isPlain c = true) : f t = 0 := by
  have happend := hf.plain_append ht []
  rwa [List.append_nil, hf.nil] at happend

theorem append_plain_append {s : Text} (hs : ∀ c ∈ s, isPlain c = true) (hne : s ≠ [])
    (t u : Text) : f (t ++ (s ++ u)) = f t + f u := by
  cases s with
  | nil => exact absurd rfl hne
  | cons c cs =>
      rw [List.cons_append, hf.parted (hs c (by simp)),
        hf.plain_append fun d hd => hs d (by simp [hd])]

theorem join {separator : Text} (hs : ∀ c ∈ separator, isPlain c = true) (hne : separator ≠ [])
    (parts : List Text) : f (Text.join separator parts) = (parts.map f).sum := by
  cases parts with
  | nil => exact hf.nil
  | cons part parts =>
      rw [join_cons, List.map_cons, List.sum_cons]
      induction parts generalizing part with
      | nil => simp
      | cons next parts ih =>
          rw [List.flatMap_cons, List.append_assoc, hf.append_plain_append hs hne, ih, List.map_cons,
            List.sum_cons]

theorem dropWhile_isBlank (t : Text) : f (t.dropWhile isBlank) = f t := by
  induction t with
  | nil => rfl
  | cons c cs ih =>
      cases hc : isBlank c with
      | true => rw [List.dropWhile_cons_of_pos hc, ih, hf.cons (isPlain_of_isBlank hc)]
      | false => rw [List.dropWhile_cons_of_neg (by simp [hc])]

theorem trimEnd (t : Text) : f (Text.trimEnd t) = f t := by
  induction t using List.reverseRecOn with
  | nil => rfl
  | append_singleton t c ih =>
      cases hc : isBlank c with
      | true =>
          rw [hf.append_singleton (isPlain_of_isBlank hc), ← ih]
          simp [Text.trimEnd, hc]
      | false => simp [Text.trimEnd, hc]

theorem trim (t : Text) : f (Text.trim t) = f t := by
  rw [Text.trim, hf.trimEnd, trimStart, hf.dropWhile_isBlank]

theorem filter_not_isEmpty (parts : List Text) :
    ((parts.filter fun part => !part.isEmpty).map f).sum = (parts.map f).sum := by
  induction parts with
  | nil => rfl
  | cons part parts ih =>
      cases part with
      | nil => simpa [hf.nil] using ih
      | cons c cs => simpa using ih

theorem map_trim (parts : List Text) : ((parts.map Text.trim).map f).sum = (parts.map f).sum := by
  rw [List.map_map]
  congr 1
  exact List.map_congr_left fun part _ => hf.trim part

theorem entries (t : Text) : ((Text.entries t).map f).sum = f t := by
  have hbars : ∀ c ∈ "||".toList, isPlain c = true := forall_mem_of_all (by decide)
  rw [Text.entries, hf.filter_not_isEmpty, hf.map_trim, ← hf.join hbars (by decide),
    join_splitBars]

theorem splitOn {d : Char} (hd : isPlain d = true) (t : Text) :
    ((Text.splitOn d t).map f).sum = f t := by
  have hseparator : ∀ c ∈ [d], isPlain c = true := by simpa using hd
  rw [← hf.join hseparator (List.cons_ne_nil d []), join_splitOn]

theorem commaEntries (t : Text) : ((Text.commaEntries t).map f).sum = f t := by
  rw [Text.commaEntries, hf.filter_not_isEmpty, hf.map_trim, hf.splitOn (by decide)]

theorem stripFold? {word t rest : Text} (hword : ∀ c ∈ lower word, isPlain c = true)
    (h : Text.stripFold? word t = some rest) : f t = f rest := by
  obtain ⟨front, rfl, hfront⟩ := stripFold?_eq_some h
  refine hf.plain_append (fun c hc => isPlain_of_toLower ?_) rest
  refine hword _ ?_
  rw [← hfront, lower]
  exact List.mem_map_of_mem hc

theorem cut? {d : Char} (hd : isPlain d = true) {t a b : Text} (h : Text.cut? d t = some (a, b)) :
    f t = f a + f b := by
  rw [(cut?_eq_some h).1, hf.parted hd]

end IsMeasure

end Text

end DirectoryAccess
