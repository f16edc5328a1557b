import DirectoryAccess.Proofs.BindRule.Weight
import Mathlib.Data.List.Chain

/-!
# Values that overrun their quotes

A value that is not closed takes in the quote that should end it and what
follows up to the next quote.  In front of that quote stands the operator of
the next condition, so that the tokens weigh more than the conditions do.
-/

namespace DirectoryAccess

namespace Text

/-- In front of the first quote that is not escaped, there is a comparison. -/
def IsGuarded (t : Text) : Prop :=
  ∀ a b, cutQuote? t = some (a, b) → 0 < comparisons a

theorem isGuarded_nil : IsGuarded [] := by
  intro a b h
  cases h

theorem IsGuarded.append {s t : Text} (ht : IsGuarded t) (hquotes : quotesEscaped false s = true)
    (hescape : escaping false s = false) : IsGuarded (s ++ t) := by
  intro a b h
  rw [cutQuote?_append hquotes hescape] at h
  obtain ⟨⟨a', b'⟩, hparts, heq⟩ := Option.map_eq_some_iff.1 h
  obtain ⟨rfl, rfl⟩ := Prod.mk.inj heq
  have hpos := ht a' b' hparts
  rw [comparisons_append]
  exact Nat.lt_of_lt_of_le hpos (Nat.le_add_left _ _)

/-- An escaped end of a run takes in a comparison of what follows. -/
theorem comparisons_lt_of_escaping {s behind u run rest : Text}
    (hquotes : quotesEscaped false s = true) (hescape : escaping false s = true)
    (hbehind : behind.IsGuarded) (hu : u <+: s ++ '"' :: behind)
    (hclose : closeRun? u = some (run, rest)) : comparisons s < comparisons run := by
  rw [closeRun?_eq_cutQuote?] at hclose
  obtain ⟨rest', hcut⟩ := cutQuote?_of_isPrefix hu hclose
  rw [cutQuote?_append_escaped hquotes hescape] at hcut
  obtain ⟨⟨a, b⟩, hparts, heq⟩ := Option.map_eq_some_iff.1 hcut
  obtain ⟨rfl, rfl⟩ := Prod.mk.inj heq
  have hpos := hbehind a b hparts
  have hquote : comparisons ('"' :: a) = comparisons a := by
    simp [comparisons, isComparison]
  rw [comparisons_append, hquote]
  omega

end Text

namespace Piece

/-- One of two neighbouring pieces is no condition. -/
def Apart (p q : Piece) : Prop :=
  p.condition? = none ∨ q.condition? = none

theorem isChain_enclosed (written : Bool) {ps : List Piece} (h : ps.IsChain Apart) :
    (enclosed written ps).IsChain Apart := by
  cases written with
  | false => exact h
  | true =>
      have hclosing : (ps ++ [closing]).IsChain Apart := by
        rw [List.isChain_append]
        exact ⟨h, .singleton closing, by simp [Apart]⟩
      exact hclosing.cons (by simp [Apart])

end Piece

namespace BindRule

mutual

theorem isChain_pieces (below : Bool) :
    ∀ r : BindRule, (r.pieces below).IsChain Piece.Apart
  | condition c => by
      rw [pieces]
      exact Piece.isChain_enclosed _ (.singleton _)
  | and os p => by
      rw [pieces]
      exact Piece.isChain_enclosed _ (isChain_linkedPieces .and os).tail
  | or os p => by
      rw [pieces]
      exact Piece.isChain_enclosed _ (isChain_linkedPieces .or os).tail
  | not o => by
      rw [pieces]
      exact isChain_pieces true o

theorem isChain_linkedPieces (c : Connective) :
    ∀ rs : List BindRule, (linkedPieces c rs).IsChain Piece.Apart
  | [] => .nil
  | r :: rs => by
      have hothers : ∀ p ∈ (linkedPieces c rs).head?, p.condition? = none := by
        cases rs with
        | nil => simp [linkedPieces]
        | cons r' rs => simp [linkedPieces]
      have happend : (pieces true r ++ linkedPieces c rs).IsChain Piece.Apart := by
        rw [List.isChain_append]
        exact ⟨isChain_pieces true r, isChain_linkedPieces c rs,
          fun _ _ p hp => Or.inr (hothers p hp)⟩
      rw [linkedPieces]
      exact happend.cons (by simp [Piece.Apart])

end

end BindRule

namespace Piece

open BindToken BindRule

/-- What follows a condition is guarded if what follows the pieces is. -/
theorem isGuarded_pieces (ps : List Piece) {t : Text} (ht : t.IsGuarded) :
    Text.IsGuarded (ps.flatMap text ++ t) := by
  induction ps with
  | nil => exact ht
  | cons p ps ih =>
      rw [List.flatMap_cons, List.append_assoc]
      cases hp : p.condition? with
      | none =>
          obtain ⟨hquotes, hescape⟩ := quotesEscaped_text_of_glue hp
          exact ih.append hquotes hescape
      | some c =>
          obtain rfl : p = condition c := by
            cases p <;> simp_all
          intro a b h
          obtain ⟨hquotes, hescape⟩ := c.quotesEscaped_front
          rw [text_condition, c.text_append, Text.cutQuote?_append hquotes hescape,
            Text.cutQuote?_cons_quote] at h
          simp only [Option.map_some, Option.some.injEq, Prod.mk.injEq, List.append_nil] at h
          obtain ⟨rfl, -⟩ := h
          rw [c.comparisons_front]
          exact Condition.comparisons_symbol_pos c.op

theorem isCondition_tokens_iff {c d : Condition} :
    IsCondition (condition c).tokens (.condition d) ↔ d = .make c.keyword c.op d.value ∧
      Value.parseBind c.keyword c.value.text = .ok d.value := by
  have hspell : spell [⟨.value true, c.value.text⟩] = c.value.text := by
    simp [spell, Text.join]
  constructor
  · intro h
    cases h with
    | @intro name comparison values k op v hname hop hne hvalues hkeyword hvalue =>
        rw [c.keyword.parse_name] at hkeyword
        cases hkeyword
        cases hop
        rw [hspell] at hvalue
        exact ⟨rfl, hvalue⟩
  · rintro ⟨hd, hvalue⟩
    rw [hd]
    refine .intro rfl rfl (List.cons_ne_nil _ _) ?_ c.keyword.parse_name ?_
    · simp [isValue]
    · rwa [hspell]

theorem endsCondition_of_glue {p : Piece} (hp : p.condition? = none) (ts : List BindToken) :
    ∃ t, p.tokens ++ ts = t :: ts ∧ endsCondition t = true := by
  rcases p with _ | _ | (_ | _ | _) | c
  case condition => cases hp
  all_goals exact ⟨_, rfl, rfl⟩

/-- A condition ends where the pieces behind it start, since none of them is a condition at once. -/
theorem endsCondition_behind {c : Condition} {ps : List Piece} {ts : List BindToken}
    (hchain : (condition c :: ps).IsChain Apart)
    (hend : EndsCondition ts ∨ ∀ p ∈ (condition c :: ps).getLast?, p.condition? = none) :
    EndsCondition (ps.flatMap tokens ++ ts) := by
  cases ps with
  | nil => simpa using hend
  | cons q ps =>
      have hq : q.condition? = none := by
        simpa [Apart] using hchain.rel_head?
      rw [List.flatMap_cons, List.append_assoc]
      obtain ⟨t, htokens, ht⟩ := endsCondition_of_glue hq (ps.flatMap tokens ++ ts)
      rw [htokens]
      intro u hu
      cases hu
      exact ht

/-- The conditions read from the tokens of pieces are those of the pieces, one by one. -/
theorem leaves_of_pieces {ps : List Piece} (hchain : ps.IsChain Apart) {ts : List BindToken}
    {cs : List Condition} (hend : EndsCondition ts ∨ ∀ p ∈ ps.getLast?, p.condition? = none)
    (h : Leaves (ps.flatMap tokens ++ ts) cs) :
    ∃ ds es, cs = ds ++ es ∧ List.Forall₂
      (fun c d => IsCondition (condition c).tokens (.condition d)) (ps.filterMap condition?) ds ∧
        Leaves ts es := by
  induction ps generalizing cs with
  | nil => exact ⟨[], cs, rfl, .nil, h⟩
  | cons p ps ih =>
      have hend' : EndsCondition ts ∨ ∀ q ∈ ps.getLast?, q.condition? = none := by
        refine hend.imp_right fun hlast q hq => hlast q ?_
        rw [List.getLast?_cons, Option.mem_def.1 hq]
        rfl
      rw [List.flatMap_cons, List.append_assoc] at h
      cases hp : p.condition? with
      | none =>
          obtain ⟨t, htokens, ht⟩ := endsCondition_of_glue hp (ps.flatMap tokens ++ ts)
          rw [htokens] at h
          rw [List.filterMap_cons_none hp]
          exact ih hchain.tail hend' (h.of_skip ht)
      | some c =>
          obtain rfl : p = condition c := by
            cases p <;> simp_all
          -- The tokens of a condition do not end it, and what follows them does.
          have hinside : ∀ t ∈ (condition c).tokens, endsCondition t = false := by
            simp [tokens, scanned, endsCondition, isConnective]
          obtain ⟨d, cs', rfl, hd, hcs'⟩ := h.of_append (by simp [tokens, scanned]) hinside
            (endsCondition_behind hchain hend)
          obtain ⟨ds, es, rfl, hds, hes⟩ := ih hchain.tail hend' hcs'
          refine ⟨d :: ds, es, rfl, ?_, hes⟩
          rw [List.filterMap_cons_some (condition?_condition c)]
          exact .cons hd hds

theorem tokenWeight_pieces (ps : List Piece) :
    tokenWeight (ps.flatMap tokens) = ((ps.filterMap condition?).map Condition.weight).sum := by
  have hglue {p : Piece} (hp : p.condition? = none) : tokenWeight p.tokens = 0 := by
    rcases p with _ | _ | (_ | _ | _) | c
    case condition => cases hp
    all_goals decide
  induction ps with
  | nil => rfl
  | cons p ps ih =>
      rw [List.flatMap_cons, tokenWeight_append, ih]
      cases p with
      | condition c =>
          have hname : Text.comparisons c.keyword.name = 0 := by
            cases c.keyword <;> decide
          rw [List.filterMap_cons_some (condition?_condition c), List.map_cons, List.sum_cons]
          simp [tokenWeight, tokens, scanned, hname, Condition.weight]
      | _ => rw [hglue rfl, Nat.zero_add, List.filterMap_cons_none rfl]

theorem scan_front_eq_ok {c : Condition} {u : Text} {found : List BindToken}
    (h : reader.scan (c.front ++ '"' :: u) = .ok found) :
    ∃ run rest found', Text.closeRun? u = some (run, rest) ∧
      found = [⟨.value false, c.keyword.name⟩, ⟨.operator c.op, c.op.symbol⟩,
        ⟨.value true, run⟩] ++ found' := by
  rw [c.scan_front] at h
  obtain ⟨ts, hts, rfl⟩ := Outcome.map_eq_ok.1 h
  cases hclose : Text.closeRun? u with
  | none =>
      rw [scan_openQuote hclose] at hts
      cases hts
  | some parts =>
      obtain ⟨run, rest⟩ := parts
      rw [scan_quote hclose] at hts
      obtain ⟨found', -, rfl⟩ := Outcome.map_eq_ok.1 hts
      exact ⟨run, rest, found', rfl, rfl⟩

/-- The condition that starts with these tokens takes in all three. -/
theorem le_tokenWeight {us ts vs : List BindToken} {d : Condition} {n o q : BindToken}
    (hlist : n :: o :: q :: vs = us ++ ts) (h : IsCondition us (.condition d)) :
    Text.comparisons o.text + Text.comparisons q.text ≤ tokenWeight us := by
  have hlength := h.three_le_length
  match us with
  | [] => simp at hlength
  | [_] => simp at hlength
  | [_, _] => simp at hlength
  | t :: u :: v :: us =>
      simp only [List.cons_append, List.cons.injEq] at hlist
      obtain ⟨rfl, rfl, rfl, -⟩ := hlist
      simp only [tokenWeight, List.map_cons, List.sum_cons]
      omega

/-- A condition whose run is longer than its value weighs less than what it is read from. -/
theorem weight_lt_of_leaves {c : Condition} {ds cs : List Condition} {run : Text}
    {ts : List BindToken} (hspelled : ∀ t ∈ ts, t.IsSpelled)
    (hrun : Text.quotesEscaped false c.value.text = true →
      Text.comparisons c.value.text < Text.comparisons run)
    (hts : ∃ vs, ts = ⟨.value false, c.keyword.name⟩ :: ⟨.operator c.op, c.op.symbol⟩ ::
      ⟨.value true, run⟩ :: vs)
    (h : Leaves ts cs) (hkeys : cs.map Condition.key = (c :: ds).map Condition.key) :
    (cs.map Condition.weight).sum < tokenWeight ts := by
  obtain ⟨vs, rfl⟩ := hts
  obtain ⟨us, ts, d, ds', hlist, rfl, hd, hds⟩ := h.exists_leaf (by rfl)
  rw [List.map_cons, List.map_cons, List.cons.injEq] at hkeys
  obtain ⟨-, hop, hvalue⟩ : d.keyword = c.keyword ∧ d.op = c.op ∧
      d.value.text = c.value.text := by
    simpa [Condition.key] using hkeys.1
  have hfirst := le_tokenWeight hlist hd
  rw [hlist] at hspelled ⊢
  have hus : ∀ t ∈ us, t.IsSpelled := fun t ht => hspelled t (List.mem_append_left ts ht)
  have hts : ∀ t ∈ ts, t.IsSpelled := fun t ht => hspelled t (List.mem_append_right us ht)
  have hquotes := hd.quotesEscaped hus
  rw [hvalue] at hquotes
  have hlt := hrun hquotes
  have hrest := hds.weight_le hts
  rw [List.map_cons, List.sum_cons, tokenWeight_append, Condition.weight, hop, hvalue]
  dsimp only at hfirst
  omega

variable {ps qs : List Piece} {c : Condition}

/--
If the first value that is not closed is read as part of its own condition, then the text weighs
more than its conditions.
-/
theorem weight_lt_of_overrun {u behind : Text} {found : List BindToken} {cs : List Condition}
    (hchain : (ps ++ condition c :: qs).IsChain Apart)
    (hclosed : ∀ d, condition d ∈ ps → d.value.text.isClosed = true)
    (hopen : c.value.text.isClosed = false) (hbehind : behind.IsGuarded)
    (hu : u <+: c.value.text ++ '"' :: behind)
    (hscan : reader.scan (ps.flatMap text ++ (c.front ++ '"' :: u)) = .ok found)
    (h : Leaves (joinNots found) cs)
    (hkeys : cs.map Condition.key =
      ((ps ++ condition c :: qs).filterMap condition?).map Condition.key) :
    (cs.map Condition.weight).sum <
      Text.comparisons (ps.flatMap text ++ (c.front ++ '"' :: u)) := by
  have hspelled := isSpelled_joinNots (isSpelled_of_scan hscan)
  rw [← comparisons_of_scan hscan, ← comparisons_joinNots, ← tokenWeight]
  rw [scan_pieces hclosed] at hscan
  obtain ⟨tail, htail, rfl⟩ := Outcome.map_eq_ok.1 hscan
  obtain ⟨run, rest, found', hclose, rfl⟩ := scan_front_eq_ok htail
  rw [joinNots_scanned ps (by simp), joinNots_append (by simp)] at h hspelled ⊢
  rw [List.isChain_append] at hchain
  have hlast : ∀ p ∈ ps.getLast?, p.condition? = none := by
    intro p hp
    simpa [Apart] using hchain.2.2 p hp (condition c) rfl
  obtain ⟨ds, es, rfl, hds, hes⟩ := leaves_of_pieces hchain.1 (.inr hlast) h
  have hlength : (ds.map Condition.key).length =
      ((ps.filterMap condition?).map Condition.key).length := by
    rw [List.length_map, List.length_map, hds.length_eq]
  rw [List.filterMap_append, List.map_append, List.map_append,
    List.filterMap_cons_some (condition?_condition c)] at hkeys
  obtain ⟨hfront, hback⟩ := List.append_inj hkeys hlength
  have hlt := weight_lt_of_leaves
    (fun t ht => hspelled t (List.mem_append_right _ ht))
    (fun hquotes => Text.comparisons_lt_of_escaping hquotes
      (Text.escaping_of_not_isClosed hquotes hopen) hbehind hu hclose)
    ⟨_, rfl⟩ hes hback
  rw [List.map_append, List.sum_append, tokenWeight_append, tokenWeight_pieces,
    ← Condition.map_weight_of_map_key hfront]
  exact Nat.add_lt_add_left hlt _

end Piece

end DirectoryAccess
