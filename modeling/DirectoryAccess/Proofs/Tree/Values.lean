import DirectoryAccess.Proofs.Value.Strength
import DirectoryAccess.Tree.Values
import Mathlib.Data.List.Nodup

/-!
# Trees of values are faithful

The reader of a tree gives back the value that the tree was made of, whether or
not the value would pass its check.  So no two values have the same tree.
-/

namespace DirectoryAccess

namespace Tree

variable {α : Type} {encode : α → Tree} {decode : Tree → Option α}

/-- Reading the tree of a value gives the value. -/
def IsFaithful (encode : α → Tree) (decode : Tree → Option α) : Prop :=
  ∀ a, decode (encode a) = some a

theorem IsFaithful.injective (h : IsFaithful encode decode) : Function.Injective encode := by
  intro a b heq
  have hdecoded := congrArg decode heq
  rw [h a, h b] at hdecoded
  exact Option.some.inj hdecoded

theorem IsFaithful.list (h : IsFaithful encode decode) :
    IsFaithful (fun as => .list (as.map encode)) (list? decode) := by
  intro as
  rw [list?]
  induction as with
  | nil => rfl
  | cons a as ih => rw [List.map_cons, List.mapM_cons, h a, ih]; rfl

/-- Nothing stands for what is missing, so that it must not stand for anything else. -/
theorem IsFaithful.option (h : IsFaithful encode decode) (hnull : ∀ a, encode a ≠ .null) :
    IsFaithful (ofOption encode) (option? decode) := by
  intro x
  cases x with
  | none => rfl
  | some a =>
      rw [ofOption, option?, h a]
      · rfl
      · exact hnull a

theorem isFaithful_text : IsFaithful text text? :=
  fun _ => rfl

theorem isFaithful_bool : IsFaithful bool bool? :=
  fun _ => rfl

theorem isFaithful_texts : IsFaithful ofTexts (list? text?) :=
  isFaithful_text.list

theorem nat?_ofNat {bound n : Nat} (h : n ≤ bound) : nat? bound (ofNat n) = some n :=
  if_pos h

/-- Every field of a record is found under its name, whatever stands in the fields before it. -/
theorem fields?_record {names : List Text} (hnames : names.Nodup) {contents : List Tree}
    (hlength : names.length = contents.length) :
    fields? names (.record (names.zip contents)) = some (contents.map some) := by
  rw [fields?, Option.some.injEq]
  induction names generalizing contents with
  | nil =>
      obtain rfl : contents = [] := List.length_eq_zero_iff.1 hlength.symm
      rfl
  | cons name names ih =>
      cases contents with
      | nil => cases hlength
      | cons content contents =>
          obtain ⟨hnot, hrest⟩ := List.nodup_cons.1 hnames
          rw [List.zip_cons_cons, List.map_cons, List.map_cons, List.lookup_cons_self,
            List.cons_eq_cons, ← ih hrest (Nat.succ.inj hlength)]
          refine ⟨rfl, List.map_congr_left fun other hother => ?_⟩
          have hne : (other == name) = false :=
            beq_eq_false_iff_ne.2 fun heq => hnot (heq ▸ hother)
          rw [List.lookup_cons, hne]

end Tree

open DirectoryAccess.Tree

theorem Operator.isFaithful_tree : IsFaithful Operator.tree Operator.ofTree? := by
  intro op
  cases op <;> rfl

theorem BindKeyword.isFaithful_tree : IsFaithful BindKeyword.tree BindKeyword.ofTree? := by
  intro k
  cases k <;> rfl

theorem TargetKeyword.isFaithful_tree : IsFaithful TargetKeyword.tree TargetKeyword.ofTree? := by
  intro k
  cases k <;> rfl

theorem SpecialName.isFaithful_tree : IsFaithful SpecialName.tree SpecialName.ofTree? := by
  intro s
  cases s <;> rfl

theorem SearchScope.isFaithful_tree : IsFaithful SearchScope.tree SearchScope.ofTree? := by
  intro s
  cases s <;> rfl

theorem AuthMethod.isFaithful_tree : IsFaithful AuthMethod.tree AuthMethod.ofTree? := by
  intro m
  cases m <;> rfl

theorem BindingKind.isFaithful_tree : IsFaithful BindingKind.tree BindingKind.ofTree? := by
  intro k
  cases k with
  | type b => cases b <;> rfl
  | value v => rfl

theorem BitSet.isFaithful_tree {width : Nat} :
    IsFaithful (@BitSet.tree width) BitSet.ofTree? := by
  intro s
  have hbound : s.toNat ≤ (BitVec.allOnes width).toNat := by
    have hlt : s.bits.toNat < 2 ^ width := s.bits.isLt
    rw [BitVec.toNat_allOnes]
    exact Nat.le_sub_one_of_lt hlt
  rw [tree, ofTree?, nat?_ofNat hbound, Option.map_some, ofNat, toNat, BitVec.ofNat_toNat,
    BitVec.setWidth_eq]

theorem DaySet.isFaithful_tree : IsFaithful DaySet.tree DaySet.ofTree? := by
  intro s
  rw [tree, ofTree?, BitSet.isFaithful_tree s.set, Option.map_some]

theorem ClockTime.isFaithful_tree : IsFaithful ClockTime.tree ClockTime.ofTree? := by
  intro t
  have hlt : t.value < 65536 := t.hhmm.toNat_lt
  have hhigh : t.value / 256 ≤ 255 := by omega
  have hlow : t.value % 256 ≤ 255 := by omega
  have hvalue : t.value / 256 * 256 + t.value % 256 = t.value := by omega
  rw [tree, ofTree?, nat?_ofNat hhigh, nat?_ofNat hlow]
  show some (⟨UInt16.ofNat (t.value / 256 * 256 + t.value % 256)⟩ : ClockTime) = some t
  rw [hvalue, value, UInt16.ofNat_toNat]

/-- The tree of a strength is the byte that is kept, or null where there is none. -/
theorem Strength.tree_eq_elim (s : Strength) :
    s.tree = s.byte?.elim .null fun b => .ofNat b.toNat := by
  obtain ⟨byte, rfl⟩ := exists_ofByte?_eq s
  rw [byte?_ofByte?]
  cases byte <;> rfl

theorem Strength.isFaithful_tree : IsFaithful Strength.tree Strength.ofTree? := by
  intro s
  obtain ⟨byte, rfl⟩ := exists_ofByte?_eq s
  rw [tree_eq_elim, byte?_ofByte?]
  cases byte with
  | none => rfl
  | some b =>
      rw [Option.elim_some, ofTree?, nat?_ofNat (Nat.le_of_lt_succ b.toNat_lt)]
      · exact congrArg some (ofInt_elim (some b))
      · exact Tree.noConfusion

theorem DistinguishedName.isFaithful_tree :
    IsFaithful DistinguishedName.tree DistinguishedName.ofTree? :=
  fun _ => rfl

theorem SearchFilter.isFaithful_tree : IsFaithful SearchFilter.tree SearchFilter.ofTree? :=
  fun _ => rfl

theorem ObjectId.isFaithful_tree : IsFaithful ObjectId.tree ObjectId.ofTree? :=
  fun _ => rfl

theorem EntryUrl.isFaithful_tree : IsFaithful EntryUrl.tree EntryUrl.ofTree? := by
  intro u
  have hscope : IsFaithful (ofOption SearchScope.tree) (option? SearchScope.ofTree?) :=
    SearchScope.isFaithful_tree.option fun _ => Tree.noConfusion
  have hfilter : IsFaithful (ofOption SearchFilter.tree) (option? SearchFilter.ofTree?) :=
    SearchFilter.isFaithful_tree.option fun _ => Tree.noConfusion
  rw [tree, ofTree?, fields?_record (by decide) rfl]
  simp only [List.map_cons, List.map_nil, required?, optional?, isFaithful_texts u.attributes,
    DistinguishedName.isFaithful_tree u.base, hscope u.scope, hfilter u.filter]
  rfl

theorem NameEntry.isFaithful_tree : IsFaithful NameEntry.tree NameEntry.ofTree? := by
  intro e
  cases e with
  | special s => exact congrArg (Option.map special) (SpecialName.isFaithful_tree s)
  | dn d => rfl
  | url u => exact congrArg (Option.map url) (EntryUrl.isFaithful_tree u)

theorem NameList.isFaithful_tree : IsFaithful NameList.tree NameList.ofTree? := by
  intro l
  exact congrArg (Option.map NameList.mk) (NameEntry.isFaithful_tree.list l.items)

theorem AttributeBinding.isFaithful_levels :
    IsFaithful (fun l : InheritanceLevels => l.set.tree) levelsOfTree? := by
  intro l
  rw [levelsOfTree?, BitSet.isFaithful_tree l.set, Option.map_some]

theorem AttributeBinding.isFaithful_tree :
    IsFaithful AttributeBinding.tree AttributeBinding.ofTree? := by
  intro b
  have hlevels : IsFaithful (ofOption fun l : InheritanceLevels => l.set.tree)
      (option? levelsOfTree?) :=
    isFaithful_levels.option fun _ => Tree.noConfusion
  rw [tree, ofTree?, fields?_record (by decide) rfl]
  simp only [List.map_cons, List.map_nil, required?, optional?, isFaithful_text b.attr,
    BindingKind.isFaithful_tree b.kind, hlevels b.levels]
  rfl

theorem AttributeList.isFaithful_tree : IsFaithful AttributeList.tree AttributeList.ofTree? := by
  intro l
  show (do
    let all ← bool? (.bool l.all)
    let attributes ← list? text? (ofTexts l.attributes)
    return AttributeList.mk all attributes) = some l
  rw [isFaithful_texts l.attributes]
  rfl

theorem AttributeFilter.isFaithful_tree : IsFaithful AttributeFilter.tree AttributeFilter.ofTree? :=
  fun _ => rfl

theorem FilterChanges.isFaithful_tree : IsFaithful FilterChanges.tree FilterChanges.ofTree? := by
  intro c
  have hlist := AttributeFilter.isFaithful_tree.list
  show (do
    let add ← list? AttributeFilter.ofTree? (.list (c.add.map AttributeFilter.tree))
    let delete ← list? AttributeFilter.ofTree? (.list (c.delete.map AttributeFilter.tree))
    return FilterChanges.mk add delete) = some c
  rw [hlist c.add, hlist c.delete]
  rfl

/-- The form that a shape of values is written as is read by the reader of that shape. -/
theorem Value.isFaithful_tree : IsFaithful Value.tree Value.ofTree? := by
  intro v
  cases v with
  | names l => exact congrArg (Option.map names) (NameList.isFaithful_tree l)
  | binding b => exact congrArg (Option.map binding) (AttributeBinding.isFaithful_tree b)
  | days s => exact congrArg (Option.map days) (DaySet.isFaithful_tree s)
  | time t => exact congrArg (Option.map time) (ClockTime.isFaithful_tree t)
  | addresses l =>
      exact congrArg (Option.map fun texts => addresses ⟨texts⟩) (isFaithful_texts l.addresses)
  | domains l =>
      exact congrArg (Option.map fun texts => domains ⟨texts⟩) (isFaithful_texts l.names)
  | strength s => exact congrArg (Option.map strength) (Strength.isFaithful_tree s)
  | method m => exact congrArg (Option.map method) (AuthMethod.isFaithful_tree m)
  | objectIds l =>
      exact congrArg (Option.map fun ids => objectIds ⟨ids⟩)
        (ObjectId.isFaithful_tree.list l.items)
  | attributes l => exact congrArg (Option.map attributes) (AttributeList.isFaithful_tree l)
  | scope s => exact congrArg (Option.map scope) (SearchScope.isFaithful_tree s)
  | filter f => exact congrArg (Option.map filter) (SearchFilter.isFaithful_tree f)
  | changes c => exact congrArg (Option.map changes) (FilterChanges.isFaithful_tree c)

end DirectoryAccess
