import DirectoryAccess.Proofs.Token.Joined
import Mathlib.Data.List.Chain

/-!
# Tokens and their spelling

Every token is spelled by the characters that it is read from.  It is read from
them again in front of any text that does not go on with it, so the spellings of the
tokens of a text, with a blank between them, have these tokens.
-/

namespace DirectoryAccess

/-- Tokens that are scanned again in front of a blank or of nothing are scanned one by one. -/
theorem TokenReader.scan_join {τ : Type} (r : TokenReader τ) {spelling : τ → Text}
    (hagain : ∀ t token u, r.read t = .token token u → ∀ rest : Text,
      (∀ c ∈ rest.head?, c = ' ') →
        r.scan (spelling token ++ rest) = (r.scan rest).map (token :: ·))
    {t : Text} {ts : List τ} (h : r.scan t = .ok ts) :
    r.scan (Text.join [' '] (ts.map spelling)) = .ok ts := by
  refine r.scan_induction
    (motive := fun _ ts => r.scan (Text.join [' '] (ts.map spelling)) = .ok ts) ?_ ?_ h
  · intro t _
    exact r.scan_nil
  · intro t found u ts hread ih
    cases ts with
    | nil =>
        have hlast := hagain _ found u hread [] (by simp)
        rw [List.append_nil, r.scan_nil] at hlast
        rw [List.map_singleton, Text.join_singleton, hlast]
        rfl
    | cons next ts =>
        rw [List.map_cons] at ih
        rw [List.map_cons, List.map_cons, Text.join_cons_cons, List.singleton_append,
          hagain _ found u hread _ (by simp), r.scan_separator (by decide), ih]
        rfl

namespace Operator

theorem read?_symbol_append {op : Operator} {rest : Text}
    (hrest : op.isOpen = true → rest.head? ≠ some '=') :
    read? (op.symbol ++ rest) = some (op, rest) := by
  cases op with
  | eq => rfl
  | ne => rfl
  | le => rfl
  | ge => rfl
  | lt | gt =>
      cases rest with
      | nil => rfl
      | cons c rest =>
          have hc : c ≠ '=' := by simpa using hrest rfl
          simp [symbol, read?, hc]

end Operator

namespace BindToken

/-- A token as it is spelled. -/
def spelling (t : BindToken) : Text :=
  if t.kind = .value true then Text.quote t.text else t.text

theorem isWord_kindOfWord (word : Text) : (kindOfWord word).isWord = true := by
  simp only [kindOfWord]
  split
  · rfl
  · split
    · rfl
    · split <;> rfl

theorem spelling_of_ne {t : BindToken} (h : t.kind ≠ .value true) : t.spelling = t.text :=
  if_neg h

theorem spelling_word (word : Text) : spelling ⟨kindOfWord word, word⟩ = word := by
  apply spelling_of_ne
  intro hquoted
  have hword := isWord_kindOfWord word
  rw [show kindOfWord word = .value true from hquoted] at hword
  cases hword

theorem Takes.eq_append {t rest : Text} {token : BindToken} (h : Takes t token rest) :
    t = token.spelling ++ rest := by
  cases h with
  | openParen => rfl
  | closeParen => rfl
  | quoted => simp [spelling, Text.quote]
  | operator => rfl
  | @word word => rw [spelling_word]

/-- No token goes on with this character. -/
def isBreak (c : Char) : Bool :=
  !isBareChar c && c != '='

theorem Ends.of_head? {token : BindToken} {rest rest' : Text} (h : token.Ends rest)
    (hhead : ∀ c ∈ rest'.head?, c ∈ rest.head? ∨ isBreak c = true) : token.Ends rest' where
  operator op hop hopen heq := by
    rcases hhead '=' heq with hmem | hbreak
    · exact h.operator op hop hopen hmem
    · cases hbreak
  word hword c hc := by
    rcases hhead c hc with hmem | hbreak
    · exact h.word hword c hmem
    · simp only [isBreak, Bool.and_eq_true, Bool.not_eq_true'] at hbreak
      exact hbreak.1

theorem read_of_read? {t rest : Text} {op : Operator} (h : Operator.read? t = some (op, rest)) :
    read t = .token ⟨.operator op, op.symbol⟩ rest := by
  unfold read
  split
  · cases h
  · cases h
  · cases h
  · rw [h]

/-- A token is scanned again in front of a text that does not go on with it. -/
theorem Takes.scan {t u rest : Text} {token : BindToken} (h : Takes t token u)
    (hrest : token.Ends rest) :
    reader.scan (token.spelling ++ rest) = (reader.scan rest).map (token :: ·) := by
  cases h with
  | openParen => exact scan_openParen rest
  | closeParen => exact scan_closeParen rest
  | @quoted run hrun =>
      have hscan := scan_quote (Text.closeRun?_of_isClosed hrun rest)
      simpa [spelling, Text.quote] using hscan
  | operator op =>
      have hread := read_of_read? (Operator.read?_symbol_append (hrest.operator op rfl))
      cases op <;> exact reader.scan_token (by decide) hread
  | @word word hne hword =>
      rw [spelling_word]
      exact scan_word hne hword (hrest.word (isWord_kindOfWord word))

theorem scan_join_spelling {t : Text} {ts : List BindToken} (h : reader.scan t = .ok ts) :
    reader.scan (Text.join [' '] (ts.map spelling)) = .ok ts := by
  refine reader.scan_join (fun t token u hread rest hrest => ?_) h
  refine (takes_of_read hread).scan ((ends_of_read hread).of_head? fun c hc => Or.inr ?_)
  rw [hrest c hc]
  rfl

theorem flatMap_spelling_joinNots (ts : List BindToken) :
    (joinNots ts).flatMap (fun token => ' ' :: token.spelling) =
      ts.flatMap (fun token => ' ' :: token.spelling) := by
  refine joinNots_induction (motive := fun ts us =>
    us.flatMap (fun token => ' ' :: token.spelling) =
      ts.flatMap (fun token => ' ' :: token.spelling)) rfl ?_ ?_ ts
  · intro a n ts us ha hn ih
    have hfirst : a.spelling = a.text := spelling_of_ne (by simp [ha])
    have hsecond : n.spelling = n.text := spelling_of_ne (by simp [hn])
    rw [List.flatMap_cons, List.flatMap_cons, List.flatMap_cons, ih, hfirst, hsecond,
      spelling_of_ne (by simp)]
    simp
  · intro t ts us ih
    rw [List.flatMap_cons, List.flatMap_cons, ih]

/-- A connective of two words is spelled as the two. -/
theorem join_spelling_joinNots (ts : List BindToken) :
    Text.join [' '] ((joinNots ts).map spelling) = Text.join [' '] (ts.map spelling) := by
  have hdrop (us : List BindToken) : Text.join [' '] (us.map spelling) =
      (us.flatMap fun token => ' ' :: token.spelling).tail := by
    cases us with
    | nil => rfl
    | cons u us => simp [Text.join_cons, List.flatMap_map]
  rw [hdrop, hdrop, flatMap_spelling_joinNots]

/-- A `NOT` in front is joined with nothing, so it stood in front before. -/
theorem kind_of_head?_joinNots {n : BindToken} {ts : List BindToken} :
    ∀ t ∈ (joinNots (n :: ts)).head?, t.kind = .not → n.kind = .not := by
  intro t ht hkind
  cases ts with
  | nil =>
      obtain rfl : n = t := by simpa [joinNots] using ht
      exact hkind
  | cons m ts =>
      rw [joinNots] at ht
      split at ht
      · obtain rfl := Option.some.inj ht
        cases hkind
      · obtain rfl : n = t := by simpa using ht
        exact hkind

theorem isChain_joinNots (ts : List BindToken) :
    (joinNots ts).IsChain fun a n => a.kind = .and → n.kind ≠ .not := by
  fun_induction joinNots ts with
  | case1 a n rest hkinds ih => exact List.isChain_cons.2 ⟨by simp, ih⟩
  | case2 a n rest hkinds ih =>
      refine List.isChain_cons.2 ⟨fun m hm ha hnot => hkinds ?_, ih⟩
      rw [ha, kind_of_head?_joinNots m hm hnot]
      rfl
  | case3 ts hno =>
      rcases ts with _ | ⟨t, _ | ⟨n, rest⟩⟩
      · exact .nil
      · exact .singleton t
      · exact absurd rfl (hno t n rest)

end BindToken

namespace TargetToken

def spelling : TargetToken → Text
  | openParen => ['(']
  | closeParen => [')']
  | operator op => op.symbol
  | bars => "||".toList
  | keyword name => name
  | value text => Text.quote text

theorem Takes.spelling_append {t rest : Text} {token : TargetToken} (h : Takes t token rest)
    {rest' : Text} (hrest' : ∀ c ∈ rest'.head?, isKeywordChar c = false) :
    Takes (token.spelling ++ rest') token rest' := by
  cases h with
  | openParen => exact .openParen rest'
  | closeParen => exact .closeParen rest'
  | operator hop => exact .operator hop rest'
  | bars => exact .bars rest'
  | value hrun => simpa [spelling, Text.quote] using Takes.value hrun rest'
  | keyword hne hword => exact .keyword hne hword hrest'

theorem scan_join_spelling {t : Text} {ts : List TargetToken} (h : reader.scan t = .ok ts) :
    reader.scan (Text.join [' '] (ts.map spelling)) = .ok ts := by
  refine reader.scan_join (fun t token u hread rest hrest => ?_) h
  refine ((takes_of_read hread).spelling_append fun c hc => ?_).scan
  rw [hrest c hc]
  rfl

end TargetToken

/--
The spellings of the tokens of a rule, with a blank between each two, have the same
tokens.  Of the tokens of a bind rule none is empty, and no `NOT` stands right behind
an `AND`.
-/
theorem spelled_tokens_scan_alike (t : Text) :
    (∀ ts, BindToken.tokens t = .ok ts →
      BindToken.tokens (Text.join [' '] (ts.map BindToken.spelling)) = .ok ts ∧
      (∀ a n, [a, n] <:+: ts → a.kind = .and → n.kind ≠ .not) ∧
      ∀ token ∈ ts, token.text ≠ []) ∧
    ∀ ts, TargetToken.tokens t = .ok ts →
      TargetToken.tokens (Text.join [' '] (ts.map TargetToken.spelling)) = .ok ts := by
  constructor
  · intro ts h
    obtain ⟨found, hscan, rfl, hne⟩ := BindToken.tokens_eq_ok_iff.1 h
    refine ⟨?_, fun a n hinfix => ?_, hne⟩
    · rw [BindToken.join_spelling_joinNots]
      exact BindToken.tokens_eq_ok_iff.2 ⟨found, BindToken.scan_join_spelling hscan, rfl, hne⟩
    · obtain ⟨front, back, hsplit⟩ := hinfix
      have hchain := BindToken.isChain_joinNots found
      rw [← hsplit] at hchain
      exact (List.isChain_cons_cons.1 hchain.left_of_append.right_of_append).1
  · intro ts h
    rw [TargetToken.tokens_eq_ok_iff] at h ⊢
    exact TargetToken.scan_join_spelling h

/-- Tokens with hardly a blank between them, and two blanks inside a connective. -/
def crowdedRule : Text :=
  "(ssf>=\"71\")and\t NOT userdn!=\"a\\\"b\"oR\nnot".toList

def crowdedTokens : List BindToken :=
  [⟨.openParen, ['(']⟩, ⟨.value false, "ssf".toList⟩, ⟨.operator .ge, ">=".toList⟩,
    ⟨.value true, "71".toList⟩, ⟨.closeParen, [')']⟩, ⟨.andNot, "and NOT".toList⟩,
    ⟨.value false, "userdn".toList⟩, ⟨.operator .ne, "!=".toList⟩,
    ⟨.value true, "a\\\"b".toList⟩, ⟨.or, "oR".toList⟩, ⟨.not, "not".toList⟩]

def crowdedClauses : Text :=
  "(targetattr!=\"cn\"||\"\")( target_to=\"ldap:///dc=a\")".toList

def clauseTokens : List TargetToken :=
  [.openParen, .keyword "targetattr".toList, .operator .ne, .value "cn".toList, .bars, .value [],
    .closeParen, .openParen, .keyword "target_to".toList, .operator .eq,
    .value "ldap:///dc=a".toList, .closeParen]

theorem spelled_tokens_scan_alike_of_crowded :
    BindToken.tokens crowdedRule = .ok crowdedTokens ∧
      BindToken.tokens "( ssf >= \"71\" ) and NOT userdn != \"a\\\"b\" oR not".toList =
        .ok crowdedTokens ∧
      TargetToken.tokens crowdedClauses = .ok clauseTokens ∧
      TargetToken.tokens
          "( targetattr != \"cn\" || \"\" ) ( target_to = \"ldap:///dc=a\" )".toList =
        .ok clauseTokens := by
  have hrule : BindToken.tokens crowdedRule = .ok crowdedTokens :=
    Outcome.toOption_eq_some.1 (by decide +kernel)
  have hclauses : TargetToken.tokens crowdedClauses = .ok clauseTokens :=
    Outcome.toOption_eq_some.1 (by decide +kernel)
  exact ⟨hrule, ((spelled_tokens_scan_alike crowdedRule).1 crowdedTokens hrule).1, hclauses,
    (spelled_tokens_scan_alike crowdedClauses).2 clauseTokens hclauses⟩

end DirectoryAccess
