import DirectoryAccess.Proofs.Text.Join
import DirectoryAccess.Text.Split

/-!
# Splitting undoes joining

Joining the parts of a text gives the text back, and splitting a text that was
joined gives its parts back as long as no part holds the delimiter.
-/

namespace DirectoryAccess

namespace Text

theorem consPart_ne_nil (c : Char) (parts : List Text) : consPart c parts ≠ [] := by
  cases parts <;> simp [consPart]

theorem join_consPart (separator : Text) (c : Char) (parts : List Text) :
    join separator (consPart c parts) = c :: join separator parts := by
  cases parts with
  | nil => rfl
  | cons part parts => rw [consPart, join_cons, join_cons, List.cons_append]

theorem join_nil_cons (separator : Text) {parts : List Text} (hne : parts ≠ []) :
    join separator ([] :: parts) = separator ++ join separator parts := by
  cases parts with
  | nil => exact absurd rfl hne
  | cons part parts =>
      rw [join_cons, join_cons, List.nil_append, List.flatMap_cons, List.append_assoc]

theorem splitOn_ne_nil (d : Char) (t : Text) : splitOn d t ≠ [] := by
  cases t with
  | nil => simp [splitOn]
  | cons c cs =>
      rw [splitOn]
      split
      · simp
      · exact consPart_ne_nil c _

theorem join_splitOn (d : Char) (t : Text) : join [d] (splitOn d t) = t := by
  induction t with
  | nil => rfl
  | cons c cs ih =>
      rw [splitOn]
      split
      · rename_i hc
        rw [join_nil_cons _ (splitOn_ne_nil d cs), ih, hc, List.singleton_append]
      · rw [join_consPart, ih]

theorem splitOn_of_not_mem {d : Char} {t : Text} (h : d ∉ t) : splitOn d t = [t] := by
  induction t with
  | nil => rfl
  | cons c cs ih =>
      have hc : c ≠ d := fun heq => h (by simp [heq])
      rw [splitOn, if_neg hc, ih fun hmem => h (List.mem_cons_of_mem c hmem)]
      rfl

theorem consPart_append (c : Char) {ps : List Text} (hne : ps ≠ []) (qs : List Text) :
    consPart c (ps ++ qs) = consPart c ps ++ qs := by
  cases ps with
  | nil => exact absurd rfl hne
  | cons p ps => rfl

/-- Each delimiter parts the text into what is in front of it and what is behind it. -/
theorem splitOn_append (d : Char) (s t : Text) :
    splitOn d (s ++ d :: t) = splitOn d s ++ splitOn d t := by
  induction s with
  | nil =>
      rw [List.nil_append, splitOn.eq_2, if_pos rfl]
      rfl
  | cons c cs ih =>
      rw [List.cons_append, splitOn, splitOn, ih]
      split
      · rfl
      · exact consPart_append c (splitOn_ne_nil d cs) _

theorem splitOn_append_cons {d : Char} {s : Text} (hs : d ∉ s) (t : Text) :
    splitOn d (s ++ d :: t) = s :: splitOn d t := by
  rw [splitOn_append, splitOn_of_not_mem hs]
  rfl

theorem length_splitOn (d : Char) (t : Text) : (splitOn d t).length = t.count d + 1 := by
  induction t with
  | nil => rfl
  | cons c cs ih =>
      rw [splitOn]
      split
      · rename_i hc
        rw [List.length_cons, ih, hc, List.count_cons_self]
      · rename_i hc
        rw [List.count_cons_of_ne hc, ← ih]
        cases h : splitOn d cs with
        | nil => exact absurd h (splitOn_ne_nil d cs)
        | cons p ps => rfl

/-- Parts without the delimiter are what the joined text splits into. -/
theorem splitOn_join {d : Char} {parts : List Text} (hne : parts ≠ []) (h : ∀ p ∈ parts, d ∉ p) :
    splitOn d (join [d] parts) = parts := by
  induction parts with
  | nil => exact absurd rfl hne
  | cons part parts ih =>
      have hpart := h part (by simp)
      cases parts with
      | nil => simpa [join_cons] using splitOn_of_not_mem hpart
      | cons next parts =>
          have hrest := ih (by simp) fun p hp => h p (List.mem_cons_of_mem part hp)
          rw [join_cons_cons, List.singleton_append, splitOn_append_cons hpart, hrest]

theorem splitBars_ne_nil (t : Text) : splitBars t ≠ [] := by
  fun_cases splitBars t with
  | case1 => simp
  | case2 => simp
  | case3 => exact consPart_ne_nil _ _

theorem join_splitBars (t : Text) : join "||".toList (splitBars t) = t := by
  fun_induction splitBars t with
  | case1 => rfl
  | case2 cs ih =>
      rw [join_nil_cons _ (splitBars_ne_nil cs), ih]
      rfl
  | case3 c cs hno ih => rw [join_consPart, ih]

end Text

end DirectoryAccess
