import DirectoryAccess.Proofs.TargetRule.Firsts
import DirectoryAccess.Proofs.TargetRule.RoundTrip
import DirectoryAccess.Tree.Rules

/-!
# Target rules that repeat a keyword

Neither pushing nor reading makes a rule with two clauses of one keyword, but a
rule may be such by itself, say as part of a tree.  The verdict looks at each
clause alone, so it lets such a rule pass, and when its text is read the later
clauses are gone.
-/

namespace DirectoryAccess

/-- What a keyword permits, the scanner knows. -/
theorem TargetKeyword.isKnown_of_permits {k : TargetKeyword} {op : Operator}
    (h : k.permits op = true) : TargetToken.isKnown op = true := by
  revert h
  cases k <;> cases op <;> decide

theorem Error.findings_eq_nil_iff {x : Except Error Unit} : findings x = [] ↔ x = .ok () := by
  cases x <;> simp [findings]

theorem Clause.isKnown_of_check {c : Clause} (h : c.check = .ok ()) :
    TargetToken.isKnown c.op = true := by
  rw [check, Error.verdict_eq_ok_iff, faults, List.append_eq_nil_iff] at h
  refine TargetKeyword.isKnown_of_permits (k := c.keyword) ?_
  simpa using h.1

namespace TargetRule

/-- A rule is in order exactly if it is not too large and each clause is in order by itself. -/
theorem check_eq_ok_iff {r : TargetRule} :
    r.check = .ok () ↔ r.size ≤ mostClauses ∧ ∀ c ∈ r.clauses, c.check = .ok () := by
  rw [check, Error.verdict_eq_ok_iff, List.append_eq_nil_iff, List.flatMap_eq_nil_iff]
  simp only [Error.findings_eq_nil_iff]
  refine and_congr_left fun _ => ?_
  split
  · rename_i hlarge
    simp [Nat.not_le.2 hlarge]
  · rename_i hfits
    simp [Nat.not_lt.1 hfits]

theorem nodup_keywords_firsts (cs : List Clause) : ((firsts cs).map Clause.keyword).Nodup := by
  rw [← clauses_foldl_push_empty]
  exact (isDistinct_empty.foldl_push cs).keywords

theorem firsts_eq_self_iff {cs : List Clause} :
    firsts cs = cs ↔ (cs.map Clause.keyword).Nodup := by
  constructor
  · intro h
    rw [← h]
    exact nodup_keywords_firsts cs
  · intro h
    induction cs with
    | nil => rfl
    | cons c cs ih =>
        obtain ⟨hnot, hrest⟩ := List.nodup_cons.1 h
        rw [firsts, ih hrest, List.filter_eq_self.2 fun d hd => ?_]
        rw [bne_iff_ne]
        exact fun hsame => hnot (hsame ▸ List.mem_map_of_mem hd)

theorem foldl_push_empty (cs : List Clause) : cs.foldl push empty = ⟨firsts cs⟩ :=
  congrArg TargetRule.mk (clauses_foldl_push_empty cs)

/-- The rules of distinct keywords are those that pushing makes. -/
theorem nodup_keywords_iff {r : TargetRule} :
    (r.clauses.map Clause.keyword).Nodup ↔ ∃ cs : List Clause, cs.foldl push empty = r := by
  constructor
  · intro h
    exact ⟨r.clauses, by rw [foldl_push_empty, firsts_eq_self_iff.2 h]⟩
  · rintro ⟨cs, rfl⟩
    rw [foldl_push_empty]
    exact nodup_keywords_firsts cs

/--
A rule is in order if each of its clauses is and there are no more than fit; the keywords are
distinct exactly in the rules that pushing makes.  If the clauses of a rule in order read back, its
text is read as the first of them for each keyword, and as the rule itself exactly if the keywords
are distinct.
-/
theorem text_loses_repeated_clauses (r : TargetRule) :
    (r.check = .ok () ↔ r.size ≤ mostClauses ∧ ∀ c ∈ r.clauses, c.check = .ok ()) ∧
    ((r.clauses.map Clause.keyword).Nodup ↔ ∃ cs : List Clause, cs.foldl push empty = r) ∧
    (r.check = .ok () → (∀ c ∈ r.clauses, c.ReadsBack) →
      parse r.text = .ok ⟨firsts r.clauses⟩ ∧
        (parse r.text = .ok r ↔ (r.clauses.map Clause.keyword).Nodup)) := by
  refine ⟨check_eq_ok_iff, nodup_keywords_iff, fun hcheck hread => ?_⟩
  have hops : ∀ c ∈ r.clauses, TargetToken.isKnown c.op = true :=
    fun c hc => Clause.isKnown_of_check ((check_eq_ok_iff.1 hcheck).2 c hc)
  have hparse : parse r.text = .ok ⟨firsts r.clauses⟩ := by
    rw [parse_text_eq_foldl_push hops hread, foldl_push_empty]
  refine ⟨hparse, ?_⟩
  rw [hparse, ← firsts_eq_self_iff]
  constructor
  · intro h
    exact congrArg TargetRule.clauses (Except.ok.inj h)
  · intro h
    rw [h]

/-- A rule that narrows the scope twice. -/
def twoScopes : TargetRule :=
  ⟨[⟨.targetScope, .eq, .scope .base⟩, ⟨.targetScope, .eq, .scope .subtree⟩]⟩

theorem readsBack_of_mem_twoScopes : ∀ c ∈ twoScopes.clauses, c.ReadsBack := by
  intro c hc
  have hclosed : ∀ v ∈ c.quotedTexts, v.isClosed = true := by
    intro v hv
    rw [Text.isClosed_iff]
    revert c v
    decide
  refine ⟨hclosed, ?_⟩
  simp only [twoScopes, List.mem_cons, List.not_mem_nil, or_false] at hc
  rcases hc with rfl | rfl <;> rfl

theorem text_loses_repeated_clauses_of_twoScopes :
    twoScopes.check = .ok () ∧ parse twoScopes.text = .ok ⟨[⟨.targetScope, .eq, .scope .base⟩]⟩ ∧
      (parse twoScopes.text = .ok twoScopes ↔ (twoScopes.clauses.map Clause.keyword).Nodup) :=
  ⟨rfl, (text_loses_repeated_clauses twoScopes).2.2 rfl readsBack_of_mem_twoScopes⟩

/-- A tree holds a rule in order with two clauses of one keyword, one of which its text loses. -/
theorem twoScopes_repeat_keyword :
    ofTree? twoScopes.tree = some twoScopes ∧ twoScopes.check = .ok () ∧
      ¬(twoScopes.clauses.map Clause.keyword).Nodup ∧ parse twoScopes.text ≠ .ok twoScopes := by
  have hrepeated : ¬(twoScopes.clauses.map Clause.keyword).Nodup := by decide
  refine ⟨rfl, rfl, hrepeated, fun h => ?_⟩
  have hread : parse twoScopes.text = .ok ⟨firsts twoScopes.clauses⟩ := by
    rw [parse_text_eq_foldl_push (by decide) readsBack_of_mem_twoScopes, foldl_push_empty]
  rw [hread] at h
  exact hrepeated (firsts_eq_self_iff.1 (congrArg TargetRule.clauses (Except.ok.inj h)))

end TargetRule

end DirectoryAccess
