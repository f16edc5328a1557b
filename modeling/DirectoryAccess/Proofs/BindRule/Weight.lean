import DirectoryAccess.Proofs.BindRule.Leaves
import DirectoryAccess.Proofs.BindRule.Pieces
import DirectoryAccess.Proofs.Value.Measure

/-!
# The weight of conditions

The weight of a condition is the number of characters of comparison operators
that it writes.  Reading gives no condition a weight that its tokens do not have,
and no open quote that its tokens do not have.
-/

namespace DirectoryAccess

namespace Condition

/-- What tells two conditions apart: keyword, operator and the text of the value. -/
def key (c : Condition) : BindKeyword × Operator × Text :=
  (c.keyword, c.op, c.value.text)

/-- The number of characters of comparison operators that a condition writes. -/
def weight (c : Condition) : Nat :=
  Text.comparisons c.op.symbol + Text.comparisons c.value.text

theorem map_weight_of_map_key {cs ds : List Condition} (h : cs.map key = ds.map key) :
    cs.map weight = ds.map weight := by
  have hweight (cs : List Condition) : cs.map weight = (cs.map key).map
      fun k => Text.comparisons k.2.1.symbol + Text.comparisons k.2.2 := by
    rw [List.map_map]
    rfl
  rw [hweight, hweight, h]

theorem comparisons_front (c : Condition) :
    Text.comparisons c.front = Text.comparisons c.op.symbol := by
  have hname : Text.comparisons c.keyword.name = 0 := by
    cases c.keyword <;> decide
  have hblank : Text.isPlain ' ' = true := by decide
  rw [front, Text.comparisons_isMeasure.append_singleton hblank,
    Text.comparisons_isMeasure.parted hblank, hname, Nat.zero_add]

theorem comparisons_symbol_pos (op : Operator) : 0 < Text.comparisons op.symbol := by
  cases op <;> decide

theorem quotesEscaped_front (c : Condition) :
    Text.quotesEscaped false c.front = true ∧ Text.escaping false c.front = false := by
  have hname : Text.quotesEscaped false c.keyword.name = true := by
    cases c.keyword <;> decide
  have hsymbol : Text.quotesEscaped false (c.op.symbol ++ [' ']) = true := by
    cases c.op <;> decide
  constructor
  · rw [front, List.append_assoc, List.cons_append,
      Text.quotesEscaped_append_cons (by decide) (by decide), hname, hsymbol]
    rfl
  · rw [front, Text.escaping_append, Text.escaping_cons (by decide)]
    rfl

theorem comparisons_text (c : Condition) : Text.comparisons c.text = c.weight := by
  have hquote : Text.comparisons ('"' :: (c.value.text ++ ['"'])) =
      Text.comparisons c.value.text := by
    simp [Text.comparisons, Text.isComparison]
  rw [← List.append_nil c.text, text_append, Text.comparisons_append, comparisons_front, hquote,
    weight]

end Condition

namespace Piece

theorem comparisons_text_of_glue {p : Piece} (h : p.condition? = none) :
    Text.comparisons p.text = 0 := by
  rcases p with _ | _ | (_ | _ | _) | c
  case condition => cases h
  all_goals decide

theorem quotesEscaped_text_of_glue {p : Piece} (h : p.condition? = none) :
    Text.quotesEscaped false p.text = true ∧ Text.escaping false p.text = false := by
  rcases p with _ | _ | (_ | _ | _) | c
  case condition => cases h
  all_goals decide

theorem comparisons_text (ps : List Piece) :
    Text.comparisons (ps.flatMap text) =
      ((ps.filterMap condition?).map Condition.weight).sum := by
  induction ps with
  | nil => rfl
  | cons p ps ih =>
      rw [List.flatMap_cons, Text.comparisons_append, ih]
      cases p with
      | condition c => simp [Condition.comparisons_text]
      | _ => rw [comparisons_text_of_glue rfl, Nat.zero_add]; rfl

end Piece

namespace BindRule

open BindToken

def tokenWeight (ts : List BindToken) : Nat :=
  (ts.map fun t => Text.comparisons t.text).sum

theorem tokenWeight_append (ts us : List BindToken) :
    tokenWeight (ts ++ us) = tokenWeight ts + tokenWeight us := by
  rw [tokenWeight, List.map_append, List.sum_append, ← tokenWeight, ← tokenWeight]

theorem comparisons_spell (ts : List BindToken) :
    Text.comparisons (spell ts) = tokenWeight ts := by
  rw [spell, Text.comparisons_isMeasure.join (Text.forall_mem_of_all (by decide)) (by decide),
    List.map_map]
  rfl

/-- A condition writes no comparison that its tokens do not have. -/
theorem IsCondition.weight_le {ts : List BindToken} {c : Condition}
    (h : IsCondition ts (condition c)) (hspelled : ∀ t ∈ ts, t.IsSpelled) :
    c.weight ≤ tokenWeight ts := by
  cases h with
  | @intro name comparison values k op v hname hop hne hvalues hkeyword hvalue =>
      have hsymbol := (hspelled comparison (by simp)).operator op hop
      have hle := Value.measure_parseBind Text.comparisons_isMeasure hvalue
      rw [comparisons_spell] at hle
      have hsplit : tokenWeight (name :: comparison :: values) =
          Text.comparisons name.text + (Text.comparisons comparison.text + tokenWeight values) := by
        simp [tokenWeight]
      rw [hsplit, hsymbol]
      simp only [Condition.weight, Condition.make]
      omega

/-- A condition has no open quote that its tokens do not have. -/
theorem IsCondition.quotesEscaped {ts : List BindToken} {c : Condition}
    (h : IsCondition ts (condition c)) (hspelled : ∀ t ∈ ts, t.IsSpelled) :
    Text.quotesEscaped false c.value.text = true := by
  cases h with
  | @intro name comparison values k op v hname hop hne hvalues hkeyword hvalue =>
      refine Value.quotesEscaped_of_parseBind hvalue ?_
      rw [← Text.openQuotes_eq_zero_iff, spell,
        Text.openQuotes_isMeasure.join (Text.forall_mem_of_all (by decide)) (by decide), List.map_map]
      refine List.sum_eq_zero fun n hn => ?_
      obtain ⟨t, ht, rfl⟩ := List.mem_map.1 hn
      exact Text.openQuotes_eq_zero_iff.2 (hspelled t (by simp [ht])).quotes

theorem Leaves.weight_le {ts : List BindToken} {cs : List Condition} (h : Leaves ts cs)
    (hspelled : ∀ t ∈ ts, t.IsSpelled) : (cs.map Condition.weight).sum ≤ tokenWeight ts := by
  induction h with
  | nil => exact Nat.zero_le _
  | @skip t ts cs ht h ih =>
      have hrest := ih fun u hu => hspelled u (List.mem_cons_of_mem t hu)
      rw [← List.singleton_append, tokenWeight_append]
      exact hrest.trans (Nat.le_add_left _ _)
  | @leaf us ts c cs hus hts h ih =>
      have hrest := ih fun u hu => hspelled u (List.mem_append_right us hu)
      have hfirst := hus.weight_le fun u hu => hspelled u (List.mem_append_left ts hu)
      rw [tokenWeight_append, List.map_cons, List.sum_cons]
      exact Nat.add_le_add hfirst hrest

end BindRule

end DirectoryAccess
