import DirectoryAccess.Proofs.Text.Depth
import DirectoryAccess.Proofs.Value.Descriptor
import DirectoryAccess.Proofs.Value.FilterGrammar
import DirectoryAccess.Proofs.Value.Names

/-!
# Conditions on changes read back

The conditions on the values that are added and on those that are deleted are
split by counting parentheses, while the filters in them are read with regard to
escapes.  The additions are written first.  So the conditions read back unless
one on additions, which a deletion follows in the text that is written, leaves a
parenthesis open in the count.
-/

namespace DirectoryAccess

open Text (IsSealed IsSplitter Uncut depthAfter depthBehind)

/-! ## Separators -/

/--
A search for separators that finds none at an opening parenthesis or at a name
before a colon, and that does not look beyond a closing parenthesis.
-/
structure IsContained (cut? : Text → Option Text) : Prop where
  nil : cut? [] = none
  opening (t : Text) : cut? ('(' :: t) = none
  closing {s t : Text} (h : (cut? (s ++ ')' :: t)).isSome = true) (u : Text) :
    (cut? (s ++ u)).isSome = true
  name {s : Text} (h : ∀ c ∈ s, Text.isDescriptorChar c = true) (t : Text) :
    cut? (s ++ ':' :: t) = none

theorem strip?_isContained : IsContained (Text.strip? "&&".toList) where
  nil := rfl
  opening _ := rfl
  closing {s t} h u := by
    rw [Text.isSome_strip?_iff] at h ⊢
    have hword := Text.isPrefix_of_isPrefix_append_cons (by decide) h
    exact hword.trans (List.prefix_append s u)
  name {s} h t := by
    rw [← Option.not_isSome_iff_eq_none, Text.isSome_strip?_iff]
    intro hword
    have hmem := (Text.isPrefix_of_isPrefix_append_cons (by decide) hword).subset
      (List.mem_cons_self : '&' ∈ "&&".toList)
    exact absurd (h '&' hmem) (by decide)

namespace FilterChanges

/-- What follows a comma or a semicolon that an operation follows. -/
def operation? : Text → Option Text
  | [] => none
  | c :: cs => if (c == ',' || c == ';') && opensOperation cs then some cs else none

theorem operation?_eq_some_iff {c : Char} {t rest : Text} :
    operation? (c :: t) = some rest ↔
      (c == ',' || c == ';') = true ∧ opensOperation t = true ∧ t = rest := by
  simp [operation?, and_assoc]

theorem operation?_eq_none {c : Char} (hcomma : c ≠ ',') (hsemicolon : c ≠ ';') (t : Text) :
    operation? (c :: t) = none := by
  simp [operation?, hcomma, hsemicolon]

theorem splitOperationsFrom_isSplitter : IsSplitter operation? splitOperationsFrom where
  nil _ := by rw [splitOperationsFrom]
  cut {c t rest} h := by
    obtain ⟨hmark, hopens, rfl⟩ := operation?_eq_some_iff.1 h
    rw [splitOperationsFrom, hmark, hopens]
    rfl
  keep {depth c t} h := by
    have hnot : (decide (depth = 0) && (c == ',' || c == ';') && opensOperation t) = false := by
      by_cases hdepth : depth = 0
      · simpa [operation?, hdepth] using h hdepth
      · simp [hdepth]
    rw [splitOperationsFrom, hnot]
    rfl

def openingWords : List Text :=
  ["add=".toList, "del=".toList, "delete=".toList]

theorem opensOperation_iff {t : Text} :
    opensOperation t = true ↔ ∃ word ∈ openingWords, word <+: Text.lower (Text.trimStart t) := by
  simp [opensOperation, openingWords, Text.isSome_strip?_iff, or_assoc]

/-- The word that opens an operation stands in front of a character that is in none of the words. -/
theorem exists_word_of_opensOperation {c : Char} (hblank : Text.isBlank c = false)
    (hwords : ∀ word ∈ openingWords, c.toLower ∉ word) {s t : Text}
    (h : opensOperation (s ++ c :: t) = true) :
    ∃ word ∈ openingWords, word <+: Text.lower (Text.trimStart s) := by
  obtain ⟨word, hmem, hword⟩ := opensOperation_iff.1 h
  rw [Text.trimStart_append_cons hblank, Text.lower, List.map_append, List.map_cons] at hword
  exact ⟨word, hmem, Text.isPrefix_of_isPrefix_append_cons (hwords word hmem) hword⟩

theorem opensOperation_append {s : Text} {word : Text} (hmem : word ∈ openingWords)
    (hword : word <+: Text.lower (Text.trimStart s)) (t : Text) :
    opensOperation (s ++ t) = true := by
  have hne : Text.trimStart s ≠ [] := by
    intro hnil
    rw [hnil] at hword
    obtain rfl := List.prefix_nil.1 hword
    revert hmem
    decide
  have htrim : Text.trimStart (s ++ t) = Text.trimStart s ++ t := by
    rw [Text.trimStart_append, if_neg hne]
  refine opensOperation_iff.2 ⟨word, hmem, ?_⟩
  rw [htrim, Text.lower, List.map_append]
  exact hword.trans (List.prefix_append _ _)

theorem operation?_isContained : IsContained operation? where
  nil := rfl
  opening t := operation?_eq_none (by decide) (by decide) t
  closing {s t} h u := by
    cases s with
    | nil =>
        rw [List.nil_append, operation?_eq_none (by decide) (by decide)] at h
        cases h
    | cons c s =>
        obtain ⟨rest, hrest⟩ := Option.isSome_iff_exists.1 h
        obtain ⟨hmark, hopens, -⟩ := operation?_eq_some_iff.1 hrest
        obtain ⟨word, hmem, hword⟩ := exists_word_of_opensOperation (by decide) (by decide) hopens
        have hagain := operation?_eq_some_iff.2 ⟨hmark, opensOperation_append hmem hword u, rfl⟩
        exact Option.isSome_iff_exists.2 ⟨_, hagain⟩
  name {s} h t := by
    cases s with
    | nil => exact operation?_eq_none (by decide) (by decide) t
    | cons c s =>
        rw [List.cons_append, Option.eq_none_iff_forall_not_mem]
        intro rest hrest
        obtain ⟨-, hopens, -⟩ := operation?_eq_some_iff.1 hrest
        obtain ⟨word, hmem, hword⟩ := exists_word_of_opensOperation (by decide) (by decide) hopens
        -- Every one of the words has an equals sign, and no name has one.
        have hequals : ∀ word ∈ openingWords, '=' ∈ word := by decide
        obtain ⟨d, hd, hlower⟩ := List.mem_map.1 (hword.subset (hequals word hmem))
        have hchar := h d (List.mem_cons_of_mem c ((Text.trimStart_isSuffix s).subset hd))
        rw [Text.eq_of_toLower (by decide) hlower] at hchar
        exact absurd hchar (by decide)

end FilterChanges

/-! ## Filters -/

namespace SearchFilter

theorem parenthesized_eq (t : Text) :
    parenthesized t = t ∨ parenthesized t = '(' :: (t ++ [')']) := by
  unfold parenthesized
  split
  · exact Or.inl rfl
  · exact Or.inr rfl

end SearchFilter

namespace IsContained

variable {cut? : Text → Option Text} (hcut : IsContained cut?)

include hcut

/-- A closing parenthesis behind a text and more open ones in front of it bring no separator about. -/
theorem uncut_concat {depth depth' : Nat} {s rest : Text} (h : Uncut cut? depth s rest)
    (hle : depth ≤ depth') (rest' : Text) : Uncut cut? depth' (s ++ [')']) rest' := by
  have hnone {s t : Text} (hs : cut? (s ++ t) = none) (u : Text) : cut? (s ++ ')' :: u) = none := by
    by_contra hsome
    have hagain := hcut.closing (Option.isSome_iff_ne_none.2 hsome) t
    rw [hs] at hagain
    cases hagain
  induction s generalizing depth depth' with
  | nil => exact ⟨fun _ => hnone (s := []) (t := []) hcut.nil rest', trivial⟩
  | cons c s ih =>
      obtain ⟨hhere, hbehind⟩ := h
      refine ⟨fun hzero => ?_, ih hbehind (Text.depthAfter_mono hle c)⟩
      have hcons := hnone (s := c :: s) (hhere (by omega)) rest'
      simpa using hcons

/-- No separator stands in a filter that was read from text without separators. -/
theorem isSealed_filter {t rest : Text} {f : SearchFilter} (h : SearchFilter.read t = .ok f)
    (huncut : Uncut cut? 0 (Text.trim t) rest) : IsSealed cut? f.text := by
  intro depth rest'
  obtain ⟨front, hfront⟩ := (SearchFilter.derives_of_read h).exists_front
  obtain ⟨-, -, rfl⟩ := SearchFilter.read_eq_ok_iff.1 h
  dsimp only at hfront ⊢
  rcases SearchFilter.parenthesized_eq (Text.trim t) with hsame | henclosed
  · rw [hsame] at hfront ⊢
    rw [hfront, Uncut.append_iff] at huncut
    rw [hfront]
    exact hcut.uncut_concat huncut.1 (Nat.zero_le depth) rest'
  · rw [henclosed]
    exact ⟨fun _ => hcut.opening _, hcut.uncut_concat huncut (Nat.zero_le _) rest'⟩

theorem isSealed_name {s : Text} (h : ∀ c ∈ s, Text.isDescriptorChar c = true) :
    IsSealed cut? (s ++ [':']) := by
  intro depth rest
  induction s generalizing depth with
  | nil => exact ⟨fun _ => hcut.name (s := []) (by simp) rest, trivial⟩
  | cons c s ih =>
      refine ⟨fun _ => ?_, ih (fun d hd => h d (List.mem_cons_of_mem c hd)) _⟩
      simpa using hcut.name h rest

end IsContained

theorem SearchFilter.depthBehind_text_le {t : Text} {f : SearchFilter} (h : read t = .ok f) :
    depthBehind 0 f.text ≤ depthBehind 0 t := by
  obtain ⟨-, -, rfl⟩ := read_eq_ok_iff.1 h
  dsimp only
  rw [← Text.depthBehind_trim 0 t]
  rcases parenthesized_eq (Text.trim t) with hsame | henclosed
  · rw [hsame]
  · have hopen : depthBehind 1 (Text.trim t) ≤ depthBehind 0 (Text.trim t) + 1 :=
      Text.depthBehind_succ_le 0 (Text.trim t)
    rw [henclosed, Text.depthBehind_cons, Text.depthBehind_append]
    change depthBehind 1 (Text.trim t) - 1 ≤ _
    omega

/-! ## Conditions on one attribute -/

namespace AttributeFilter

theorem isTrimmed_text {t : Text} {f : AttributeFilter} (h : read t = .ok f) :
    f.text.IsTrimmed := by
  obtain ⟨name, condition, -, hname, -, hfilter⟩ := read_eq_ok_iff.1 h
  have hattr : f.attr.IsTrimmed := by
    rw [← hname]
    exact Text.isTrimmed_trim name
  exact Text.isTrimmed_append_cons (by decide) hattr (SearchFilter.isTrimmed_text hfilter)

theorem isDescriptorChar_of_read {t : Text} {f : AttributeFilter} (h : read t = .ok f) :
    ∀ c ∈ f.attr, Text.isDescriptorChar c = true := by
  obtain ⟨name, condition, -, hname, hattr, -⟩ := read_eq_ok_iff.1 h
  apply Text.isDescriptorChar_of_mem _ hattr
  rw [← hname, Text.trim_trim]

/-- A condition is read from its own text. -/
theorem read_text {t : Text} {f : AttributeFilter} (h : read t = .ok f) : read f.text = .ok f := by
  have htrim := Text.trim_eq_self (isTrimmed_text h)
  have hchars := isDescriptorChar_of_read h
  obtain ⟨name, condition, -, hname, hattr, hfilter⟩ := read_eq_ok_iff.1 h
  have hcolon : ':' ∉ f.attr := fun hmem => absurd (hchars ':' hmem) (by decide)
  refine read_eq_ok_iff.2 ⟨f.attr, f.filter.text, ?_, ?_, hattr, SearchFilter.read_text hfilter⟩
  · rw [htrim]
    exact Text.cut?_append_cons hcolon f.filter.text
  · rw [← hname, Text.trim_trim]

theorem read_trim (t : Text) : read (Text.trim t) = read t := by
  unfold read
  rw [Text.trim_trim]

theorem depthBehind_attr {t : Text} {f : AttributeFilter} (h : read t = .ok f) :
    depthBehind 0 f.attr = 0 := by
  apply Text.depthBehind_of_forall
  intro c hc
  have hchar := isDescriptorChar_of_read h c hc
  constructor
  · rintro rfl
    cases hchar
  · rintro rfl
    cases hchar

/-- The parts of a text from which a condition was read: only the filter holds parentheses. -/
theorem exists_condition {t : Text} {f : AttributeFilter} (h : read t = .ok f) :
    ∃ name condition, Text.trim t = name ++ ':' :: condition ∧ depthBehind 0 name = 0 ∧
      SearchFilter.read condition = .ok f.filter := by
  have hdepth := depthBehind_attr h
  obtain ⟨name, condition, hcut, hname, -, hfilter⟩ := read_eq_ok_iff.1 h
  rw [← hname, Text.depthBehind_trim] at hdepth
  exact ⟨name, condition, (Text.cut?_eq_some hcut).1, hdepth, hfilter⟩

/-- The text of a condition leaves no more parentheses open than the text that it was read from. -/
theorem depthBehind_text_le {t : Text} {f : AttributeFilter} (h : read t = .ok f) :
    depthBehind 0 f.text ≤ depthBehind 0 t := by
  obtain ⟨name, condition, hsplit, hname, hfilter⟩ := exists_condition h
  have hcolon (s : Text) : depthBehind 0 (':' :: s) = depthBehind 0 s := rfl
  rw [← Text.depthBehind_trim 0 t, hsplit, text, Text.depthBehind_append, depthBehind_attr h,
    Text.depthBehind_append, hname, hcolon, hcolon]
  exact SearchFilter.depthBehind_text_le hfilter

theorem isSealed_text {cut? : Text → Option Text} (hcut : IsContained cut?) {t rest : Text}
    {f : AttributeFilter} (h : read t = .ok f) (huncut : Uncut cut? 0 t rest) :
    IsSealed cut? f.text := by
  obtain ⟨name, condition, hsplit, hname, hfilter⟩ := exists_condition h
  obtain ⟨rest, huncut⟩ := huncut.trim
  rw [hsplit, Uncut.append_iff, hname] at huncut
  obtain ⟨rest, hcondition⟩ := huncut.2.2.trim
  have htext : f.text = f.attr ++ [':'] ++ f.filter.text := by simp [text]
  rw [htext]
  exact (hcut.isSealed_name (isDescriptorChar_of_read h)).append
    (hcut.isSealed_filter hfilter hcondition)

end AttributeFilter

/-! ## Runs of conditions -/

/-- What reading leaves in a condition: it is read from its text, and no separator stands there. -/
structure AttributeFilter.ReadsBack (f : AttributeFilter) : Prop where
  read : AttributeFilter.read f.text = .ok f
  clauses : IsSealed (Text.strip? "&&".toList) f.text
  operations : IsSealed FilterChanges.operation? f.text

namespace AttributeFilter.ReadsBack

variable {f : AttributeFilter} {blanks : Text}

theorem read_blanks_append (h : f.ReadsBack) (hblanks : ∀ c ∈ blanks, Text.isBlank c = true) :
    AttributeFilter.read (blanks ++ f.text) = .ok f := by
  rw [← read_trim, Text.trim_blanks_append hblanks, read_trim, h.read]

theorem read_blanks_append_blank (h : f.ReadsBack) (hblanks : ∀ c ∈ blanks, Text.isBlank c = true) :
    AttributeFilter.read (blanks ++ f.text ++ [' ']) = .ok f := by
  rw [← read_trim, List.append_assoc, Text.trim_blanks_append hblanks,
    Text.trim_concat_blank (by decide) (isTrimmed_text h.read), h.read]

end AttributeFilter.ReadsBack

namespace FilterChanges

/-- The conditions of an operation: each but the last leaves no parenthesis open. -/
inductive IsRun : List AttributeFilter → Prop where
  | nil : IsRun []
  | cons {f : AttributeFilter} {fs : List AttributeFilter} (hf : f.ReadsBack)
      (hclosed : fs ≠ [] → depthBehind 0 f.text = 0) (hrest : IsRun fs) : IsRun (f :: fs)

theorem IsRun.readsBack {fs : List AttributeFilter} (h : IsRun fs) : ∀ f ∈ fs, f.ReadsBack := by
  induction h with
  | nil => simp
  | cons hf _ _ ih => exact List.forall_mem_cons.2 ⟨hf, ih⟩

theorem isRun_of_split {t rest : Text} {fs : List AttributeFilter}
    (huncut : Uncut operation? 0 t rest)
    (h : List.Forall₂ (fun part f => AttributeFilter.read part = .ok f)
      (Text.splitAtDepthZero "&&".toList t) fs) : IsRun fs := by
  have hsplitter : IsSplitter (Text.strip? "&&".toList) (Text.splitAtDepth "&&".toList) :=
    Text.splitAtDepth_isSplitter (by decide)
  obtain ⟨parts, hparts⟩ : ∃ parts, Text.splitAtDepth "&&".toList 0 t = parts := ⟨_, rfl⟩
  rw [Text.splitAtDepthZero, hparts] at h
  induction parts generalizing t fs with
  | nil => exact absurd hparts (hsplitter.ne_nil 0 t)
  | cons part parts ih =>
      obtain ⟨f, fs, hf, hfs, rfl⟩ := List.forall₂_cons_left_iff.1 h
      obtain ⟨behind, rfl, hpart, hend⟩ := hsplitter.exists_of_cons hparts
      rw [Uncut.append_iff] at huncut
      have hreads : f.ReadsBack :=
        ⟨AttributeFilter.read_text hf, AttributeFilter.isSealed_text strip?_isContained hf hpart,
          AttributeFilter.isSealed_text operation?_isContained hf huncut.1⟩
      rcases hend with ⟨-, rfl⟩ | ⟨hdepth, after, hcut, hafter⟩
      · rw [List.forall₂_nil_left_iff.1 hfs]
        exact .cons hreads (fun hne => absurd rfl hne) .nil
      · have hle := AttributeFilter.depthBehind_text_le hf
        have hbehind := huncut.2
        rw [Text.strip?_eq_some hcut, hdepth, Uncut.append_iff] at hbehind
        exact .cons hreads (fun _ => by omega) (ih hbehind.2 hfs hafter)

def runText (fs : List AttributeFilter) : Text :=
  Text.join " && ".toList (fs.map AttributeFilter.text)

theorem runText_cons_cons (f g : AttributeFilter) (fs : List AttributeFilter) :
    runText (f :: g :: fs) = f.text ++ (" && ".toList ++ runText (g :: fs)) := by
  simp only [runText, List.map_cons, Text.join_cons_cons]

theorem runText_singleton (f : AttributeFilter) : runText [f] = f.text := by
  rw [runText, List.map_singleton, Text.join_singleton]

/-- A run leaves a parenthesis open if one of its conditions does. -/
theorem depthBehind_runText {fs : List AttributeFilter} (h : IsRun fs) :
    depthBehind 0 (runText fs) = 0 ↔ ∀ f ∈ fs, depthBehind 0 f.text = 0 := by
  induction h with
  | nil => simp [runText]
  | @cons f fs hf hclosed hrest ih =>
      cases fs with
      | nil => simp [runText_singleton]
      | cons g fs =>
          have hfirst := hclosed (List.cons_ne_nil g fs)
          have hbetween : depthBehind 0 " && ".toList = 0 := rfl
          rw [runText_cons_cons, Text.depthBehind_append, hfirst, Text.depthBehind_append, hbetween,
            ih, List.forall_mem_cons (a := f)]
          exact ⟨fun hall => ⟨hfirst, hall⟩, fun hall => hall.2⟩

theorem isSealed_of_isBlank {s : Text} (hs : ∀ c ∈ s, Text.isBlank c = true) :
    IsSealed (Text.strip? "&&".toList) s := by
  apply IsSealed.of_forall
  rintro c hc rest
  have hmark : '&' ≠ c := by
    rintro rfl
    exact absurd (hs '&' hc) (by decide)
  change (if '&' = c then _ else none) = none
  rw [if_neg hmark]

/-- The conditions of a run are read from the parts of its text, white space in front or not. -/
theorem forall₂_split_runText {fs : List AttributeFilter} (h : IsRun fs) (hne : fs ≠ [])
    {blanks : Text} (hblanks : ∀ c ∈ blanks, Text.isBlank c = true) :
    List.Forall₂ (fun part f => AttributeFilter.read part = .ok f)
      (Text.splitAtDepthZero "&&".toList (blanks ++ runText fs)) fs := by
  have hsplitter : IsSplitter (Text.strip? "&&".toList) (Text.splitAtDepth "&&".toList) :=
    Text.splitAtDepth_isSplitter (by decide)
  rw [Text.splitAtDepthZero]
  induction h generalizing blanks with
  | nil => exact absurd rfl hne
  | @cons f fs hf hclosed hrest ih =>
      have hfront : IsSealed (Text.strip? "&&".toList) (blanks ++ f.text) :=
        (isSealed_of_isBlank hblanks).append hf.clauses
      cases fs with
      | nil =>
          rw [runText_singleton, hsplitter.whole (hfront 0 [])]
          exact .cons (hf.read_blanks_append hblanks) .nil
      | cons g fs =>
          have hblank : ∀ c ∈ [' '], Text.isBlank c = true :=
            Text.forall_mem_of_all (by decide)
          have hdepth : depthBehind 0 (blanks ++ f.text ++ [' ']) = 0 := by
            rw [Text.depthBehind_append, Text.depthBehind_append,
              Text.depthBehind_of_isBlank hblanks, hclosed (List.cons_ne_nil g fs)]
            rfl
          have hsplit : blanks ++ runText (f :: g :: fs) =
              (blanks ++ f.text ++ [' ']) ++ '&' :: '&' :: ([' '] ++ runText (g :: fs)) := by
            rw [runText_cons_cons]
            simp
          have hsealed := hfront.append (isSealed_of_isBlank hblank)
          rw [hsplit, hsplitter.append_cut (hsealed 0 _) hdepth rfl]
          exact .cons (hf.read_blanks_append_blank hblanks) (ih (List.cons_ne_nil g fs) hblank)

theorem runText_ne_nil {fs : List AttributeFilter} (hne : fs ≠ []) : runText fs ≠ [] := by
  obtain ⟨f, fs, rfl⟩ := List.exists_cons_of_ne_nil hne
  simp [runText, Text.join_cons, AttributeFilter.text]

theorem isTrimmed_runText {fs : List AttributeFilter} (h : IsRun fs) : (runText fs).IsTrimmed := by
  induction h with
  | nil => exact Text.isTrimmed_of_trim_eq rfl
  | @cons f fs hf hclosed hrest ih =>
      have hfirst := AttributeFilter.isTrimmed_text hf.read
      cases fs with
      | nil =>
          rw [runText_singleton]
          exact hfirst
      | cons g fs =>
          rw [runText_cons_cons]
          apply Text.isTrimmed_append_append hfirst (by simp [AttributeFilter.text]) ih
          exact runText_ne_nil (List.cons_ne_nil g fs)

/-! ## Operations -/

def Change.opening : Change → Text
  | .add => "add=".toList
  | .delete => "delete=".toList

def operationLine (change : Change) (fs : List AttributeFilter) : Text :=
  change.opening ++ runText fs

theorem text_eq (c : FilterChanges) :
    c.text = Text.join [','] (operationText (Change.opening .add) c.add ++
      operationText (Change.opening .delete) c.delete) :=
  rfl

theorem operationText_cons (change : Change) (f : AttributeFilter) (fs : List AttributeFilter) :
    operationText change.opening (f :: fs) = [operationLine change (f :: fs)] :=
  rfl

theorem isSealed_operationLine (change : Change) {fs : List AttributeFilter} (h : IsRun fs) :
    IsSealed operation? (operationLine change fs) := by
  have hword {word : Text} (hall : ∀ c ∈ word, c ≠ ',' ∧ c ≠ ';') : IsSealed operation? word :=
    .of_forall fun c hc rest => operation?_eq_none (hall c hc).1 (hall c hc).2 rest
  apply IsSealed.append
  · exact hword (Text.forall_mem_of_all (by cases change <;> decide))
  · apply IsSealed.join (hword (Text.forall_mem_of_all (by decide)))
    intro p hp
    obtain ⟨f, hf, rfl⟩ := List.mem_map.1 hp
    exact (h.readsBack f hf).operations

theorem depthBehind_operationLine (change : Change) (fs : List AttributeFilter) :
    depthBehind 0 (operationLine change fs) = depthBehind 0 (runText fs) := by
  rw [operationLine, Text.depthBehind_append]
  cases change <;> rfl

theorem opensOperation_operationLine (change : Change) (fs : List AttributeFilter) :
    opensOperation (operationLine change fs) = true := by
  have hopening : change.opening <+: Text.lower (Text.trimStart (operationLine change fs)) := by
    cases change <;> exact ⟨Text.lower (runText fs), rfl⟩
  exact opensOperation_iff.2 ⟨change.opening, by cases change <;> decide, hopening⟩

/-- An operation is read from its own text. -/
theorem readOperation_operationLine {seen : List Change} {change : Change} (hnew : change ∉ seen)
    {fs : List AttributeFilter} (h : IsRun fs) (hne : fs ≠ []) :
    readOperation seen (operationLine change fs) = .ok (change, fs) := by
  have hopening : ∃ word, change.opening = word ++ ['='] ∧ '=' ∉ word ∧ word ≠ [] ∧
      word.IsTrimmed ∧ Change.ofName? (Text.lower (Text.trim word)) = some change := by
    cases change
    · exact ⟨"add".toList, rfl, by decide, by decide, Text.isTrimmed_of_trim_eq rfl, rfl⟩
    · exact ⟨"delete".toList, rfl, by decide, by decide, Text.isTrimmed_of_trim_eq rfl, rfl⟩
  obtain ⟨word, hword, hequals, hwordNe, hwordTrim, hname⟩ := hopening
  have hline : operationLine change fs = word ++ '=' :: runText fs := by
    rw [operationLine, hword, List.append_assoc, List.singleton_append]
  have htrim : (word ++ '=' :: runText fs).IsTrimmed :=
    Text.isTrimmed_append_cons (by decide) hwordTrim (isTrimmed_runText h)
  refine readOperation_eq_ok_iff.2 ⟨word, runText fs, ?_, hname, hnew, ?_⟩
  · rw [hline, Text.trim_eq_self htrim]
    exact Text.cut?_append_cons hequals (runText fs)
  · have hnil : ∀ c ∈ ([] : Text), Text.isBlank c = true := by simp
    exact forall₂_split_runText h hne hnil

theorem Change.not_paren_of_ofName? {name : Text} {change : Change} (h : ofName? name = some change) :
    '(' ∉ name ∧ ')' ∉ name := by
  have hnames : name ∈ ["add".toList, "delete".toList, "del".toList] := by
    unfold ofName? at h
    split at h
    · rename_i hadd
      simp [beq_iff_eq.1 hadd]
    · split at h
      · rename_i hdelete
        rw [Bool.or_eq_true, beq_iff_eq, beq_iff_eq] at hdelete
        simpa using Or.inr hdelete
      · cases h
  have hplain : ∀ name ∈ ["add".toList, "delete".toList, "del".toList],
      '(' ∉ name ∧ ')' ∉ name := by decide
  exact hplain name hnames

theorem isRun_of_readOperation {seen : List Change} {t rest : Text} {change : Change}
    {fs : List AttributeFilter} (huncut : Uncut operation? 0 t rest)
    (h : readOperation seen t = .ok (change, fs)) : IsRun fs := by
  obtain ⟨spelling, clauses, hcut, hname, -, hfs⟩ := readOperation_eq_ok_iff.1 h
  have hdepth : depthBehind 0 spelling = 0 := by
    rw [← Text.depthBehind_trim]
    apply Text.depthBehind_of_forall
    intro c hc
    have hlower : c.toLower ∈ Text.lower (Text.trim spelling) := Text.mem_lower_of_mem hc
    obtain ⟨hopen, hclose⟩ := Change.not_paren_of_ofName? hname
    constructor
    · rintro rfl
      exact hopen hlower
    · rintro rfl
      exact hclose hlower
  obtain ⟨behind, huncut⟩ := huncut.trim
  rw [(Text.cut?_eq_some hcut).1, Uncut.append_iff, hdepth] at huncut
  exact isRun_of_split huncut.2.2 hfs

theorem isRun_of_readOperations {seen : List Change} {sofar c : FilterChanges} {ts : List Text}
    (h : readOperations seen sofar ts = .ok c) (hts : ∀ t ∈ ts, ∃ rest, Uncut operation? 0 t rest)
    (hsofar : IsRun sofar.add ∧ IsRun sofar.delete) : IsRun c.add ∧ IsRun c.delete := by
  induction ts generalizing seen sofar with
  | nil =>
      cases h
      exact hsofar
  | cons t ts ih =>
      rw [readOperations, Outcome.bind_eq_ok] at h
      obtain ⟨⟨change, fs⟩, hread, h⟩ := h
      obtain ⟨rest, huncut⟩ := hts t (by simp)
      have hrun := isRun_of_readOperation huncut hread
      apply ih h fun u hu => hts u (List.mem_cons_of_mem t hu)
      cases change with
      | add => exact ⟨hrun, hsofar.2⟩
      | delete => exact ⟨hsofar.1, hrun⟩

theorem isRun_of_read {raw : Text} {c : FilterChanges} (h : read raw = .ok c) :
    IsRun c.add ∧ IsRun c.delete := by
  obtain ⟨hoperations, -⟩ := read_eq_ok_iff.1 h
  apply isRun_of_readOperations hoperations _ ⟨.nil, .nil⟩
  exact fun t ht => splitOperationsFrom_isSplitter.uncut_of_mem ht

/-! ## Reading what is written -/

/--
Holds if the deletions, where there are any behind additions, stand outside the
parentheses that the additions open.
-/
def isSeparable (c : FilterChanges) : Bool :=
  c.delete.isEmpty || c.add.all fun f => depthBehind 0 f.text == 0

/-- An operation that stands alone is read back. -/
theorem readOperations_operationLine {change : Change} {fs : List AttributeFilter} (h : IsRun fs)
    (hne : fs ≠ []) :
    readOperations [] empty (splitOperations (operationLine change fs)) =
      .ok (empty.set change fs) := by
  have hwhole : splitOperations (operationLine change fs) = [operationLine change fs] :=
    splitOperationsFrom_isSplitter.whole (isSealed_operationLine change h 0 [])
  rw [hwhole, readOperations, readOperation_operationLine (by simp) h hne]
  rfl

theorem add_or_delete_eq_nil {t : Text} {c : FilterChanges}
    (h : readOperations [] empty [t] = .ok c) : c.add = [] ∨ c.delete = [] := by
  rw [readOperations, Outcome.bind_eq_ok] at h
  obtain ⟨⟨change, fs⟩, -, h⟩ := h
  cases h
  cases change with
  | add => exact Or.inr rfl
  | delete => exact Or.inl rfl

/-- Conditions of both kinds are found again if no parenthesis is open between them. -/
theorem splitOperations_both {add delete : List AttributeFilter} (hadd : IsRun add)
    (hdelete : IsRun delete) :
    splitOperations (operationLine .add add ++ ',' :: operationLine .delete delete) =
      if depthBehind 0 (runText add) = 0 then
        [operationLine .add add, operationLine .delete delete]
      else [operationLine .add add ++ ',' :: operationLine .delete delete] := by
  have hsplitter := splitOperationsFrom_isSplitter
  have hfirst := isSealed_operationLine .add hadd
  have hsecond := isSealed_operationLine .delete hdelete
  have hdepth := depthBehind_operationLine .add add
  rw [splitOperations]
  split
  · rename_i hclosed
    have hcut : operation? (',' :: operationLine .delete delete) =
        some (operationLine .delete delete) :=
      operation?_eq_some_iff.2 ⟨rfl, opensOperation_operationLine .delete delete, rfl⟩
    rw [hsplitter.append_cut (hfirst 0 _) (hdepth.trans hclosed) hcut,
      hsplitter.whole (hsecond 0 [])]
  · rename_i hopen
    apply hsplitter.whole
    rw [Uncut.append_iff]
    refine ⟨hfirst 0 _, fun hzero => absurd (hdepth.symm.trans hzero) hopen, hsecond _ []⟩

/-- Both operations are read back if no parenthesis is open between them, and then only. -/
theorem readOperations_both_iff {add delete : List AttributeFilter} (hadd : IsRun add)
    (haddNe : add ≠ []) (hdelete : IsRun delete) (hdeleteNe : delete ≠ []) :
    readOperations [] empty
        (splitOperations (operationLine .add add ++ ',' :: operationLine .delete delete)) =
      .ok ⟨add, delete⟩ ↔ depthBehind 0 (runText add) = 0 := by
  rw [splitOperations_both hadd hdelete]
  split
  · rename_i hclosed
    refine iff_of_true ?_ hclosed
    rw [readOperations, readOperation_operationLine (by simp) hadd haddNe]
    change readOperations [.add] _ _ = _
    rw [readOperations, readOperation_operationLine (by decide) hdelete hdeleteNe]
    rfl
  · rename_i hopen
    refine iff_of_false (fun hread => ?_) hopen
    rcases add_or_delete_eq_nil hread with hnil | hnil
    · exact haddNe hnil
    · exact hdeleteNe hnil

theorem text_additions (f : AttributeFilter) (fs : List AttributeFilter) :
    text ⟨f :: fs, []⟩ = operationLine .add (f :: fs) := by
  rw [text_eq, operationText_cons, operationText, List.append_nil, Text.join_singleton]

theorem text_deletions (g : AttributeFilter) (gs : List AttributeFilter) :
    text ⟨[], g :: gs⟩ = operationLine .delete (g :: gs) := by
  rw [text_eq, operationText_cons, operationText, List.nil_append, Text.join_singleton]

theorem text_both (f g : AttributeFilter) (fs gs : List AttributeFilter) :
    text ⟨f :: fs, g :: gs⟩ =
      operationLine .add (f :: fs) ++ ',' :: operationLine .delete (g :: gs) := by
  rw [text_eq, operationText_cons, operationText_cons, List.singleton_append, Text.join_cons_cons,
    Text.join_singleton, List.singleton_append]

theorem isSeparable_iff {f g : AttributeFilter} {fs gs : List AttributeFilter}
    (hadd : IsRun (f :: fs)) :
    isSeparable ⟨f :: fs, g :: gs⟩ = true ↔ depthBehind 0 (runText (f :: fs)) = 0 := by
  rw [isSeparable, List.isEmpty_cons, Bool.false_or, depthBehind_runText hadd, List.all_eq_true]
  simp only [beq_iff_eq]

/-- Conditions that were read are read from their text exactly if they are separable. -/
theorem read_text_iff {raw : Text} {c : FilterChanges} (h : read raw = .ok c) :
    read c.text = .ok c ↔ c.isSeparable = true := by
  obtain ⟨hadd, hdelete⟩ := isRun_of_read h
  obtain ⟨-, hsome⟩ := read_eq_ok_iff.1 h
  rw [read_eq_ok_iff, and_iff_left hsome]
  obtain ⟨add, delete⟩ := c
  cases add with
  | nil =>
      cases delete with
      | nil => cases hsome
      | cons g gs =>
          rw [text_deletions, readOperations_operationLine hdelete (List.cons_ne_nil g gs)]
          exact iff_of_true rfl rfl
  | cons f fs =>
      cases delete with
      | nil =>
          rw [text_additions, readOperations_operationLine hadd (List.cons_ne_nil f fs)]
          exact iff_of_true rfl rfl
      | cons g gs =>
          rw [text_both, isSeparable_iff hadd]
          exact readOperations_both_iff hadd (List.cons_ne_nil f fs) hdelete (List.cons_ne_nil g gs)

end FilterChanges

end DirectoryAccess
