import DirectoryAccess.Proofs.Value.Names

/-!
# Lists of values that are built by pushing

The lists of names, addresses, domains, attributes and object identifiers are all
built by pushing onto the empty list.  They differ in what they take for
equivalent, and agree in what they hold after any number of pushes: the member of
each class that was pushed first, in the order of pushing.
-/

namespace DirectoryAccess

theorem Text.sameFold_iff {a b : Text} : sameFold a b = true ↔ lower a = lower b := by
  rw [sameFold, beq_iff_eq]

theorem Text.equivalence_sameFold : Equivalence fun a b => sameFold a b = true := by
  simp only [sameFold_iff]
  exact ⟨fun _ => rfl, Eq.symm, Eq.trans⟩

theorem NameEntry.same_iff {a b : NameEntry} :
    same a b = true ↔ Text.lower a.text = Text.lower b.text := by
  rw [same_eq, Text.sameFold_iff]

theorem NameEntry.equivalence_same : Equivalence fun a b => same a b = true := by
  simp only [same_iff]
  exact ⟨fun _ => rfl, Eq.symm, Eq.trans⟩

theorem ObjectId.equivalence_beq : Equivalence fun a b : ObjectId => (a == b) = true := by
  simp only [beq_iff_eq]
  exact eq_equivalence

section Lists

variable {L α : Type} {same : α → α → Bool} {empty : L} {push : L → α → L} {items : L → List α}

/-- However members are pushed, the list holds the first of each class, in the order of pushing. -/
structure KeepsFirsts (same : α → α → Bool) (empty : L) (push : L → α → L)
    (items : L → List α) : Prop where
  equivalence : Equivalence fun x y => same x y = true
  items_pushed : ∀ xs : List α, items (xs.foldl push empty) = Distinct.firsts same xs
  pairwise_pushed : ∀ xs : List α,
    (items (xs.foldl push empty)).Pairwise fun x y => same x y = false
  push_eq_self_iff : ∀ (xs : List α) (x : α),
    push (xs.foldl push empty) x = xs.foldl push empty ↔ ∃ y ∈ xs, same y x = true

/-- A kind of list that is made of its members and is pushed onto as they are. -/
structure IsPushed (same : α → α → Bool) (empty : L) (push : L → α → L) (items : L → List α)
    (ofItems : List α → L) : Prop where
  items_ofItems : ∀ xs, items (ofItems xs) = xs
  ofItems_nil : ofItems [] = empty
  push_ofItems : ∀ xs x, push (ofItems xs) x = ofItems (Distinct.push same xs x)

namespace IsPushed

variable {ofItems : List α → L} (h : IsPushed same empty push items ofItems)

include h

theorem foldl_push_ofItems (xs ys : List α) :
    ys.foldl push (ofItems xs) = ofItems (Distinct.pushAll same xs ys) := by
  induction ys generalizing xs with
  | nil => rfl
  | cons y ys ih =>
      rw [List.foldl_cons, h.push_ofItems]
      exact ih (Distinct.push same xs y)

theorem foldl_push (xs : List α) : xs.foldl push empty = ofItems (Distinct.ofList same xs) := by
  rw [← h.ofItems_nil]
  exact h.foldl_push_ofItems [] xs

theorem keepsFirsts (hsame : Equivalence fun x y => same x y = true) :
    KeepsFirsts same empty push items where
  equivalence := hsame
  items_pushed xs := by
    rw [h.foldl_push, h.items_ofItems]
    exact Distinct.ofList_eq_firsts hsame xs
  pairwise_pushed xs := by
    rw [h.foldl_push, h.items_ofItems]
    exact Distinct.isDistinct_ofList xs
  push_eq_self_iff xs x := by
    have hinjective : Function.Injective ofItems := Function.LeftInverse.injective h.items_ofItems
    rw [h.foldl_push, h.push_ofItems, hinjective.eq_iff]
    exact Distinct.push_ofList_eq_self_iff hsame xs x

end IsPushed

end Lists

theorem NameList.isPushed : IsPushed NameEntry.same empty push items NameList.mk :=
  ⟨fun _ => rfl, rfl, fun _ _ => rfl⟩

theorem AddressList.isPushed : IsPushed Text.sameFold empty push addresses AddressList.mk :=
  ⟨fun _ => rfl, rfl, fun _ _ => rfl⟩

theorem DomainList.isPushed : IsPushed Text.sameFold empty push names DomainList.mk :=
  ⟨fun _ => rfl, rfl, fun _ _ => rfl⟩

theorem AttributeList.isPushed :
    IsPushed Text.sameFold empty push attributes (AttributeList.mk false) :=
  ⟨fun _ => rfl, rfl, fun _ _ => rfl⟩

theorem ObjectIdList.isPushed : IsPushed (· == ·) empty push items ObjectIdList.mk :=
  ⟨fun _ => rfl, rfl, fun _ _ => rfl⟩

/-- The list that stands for every attribute takes no attribute in. -/
theorem AttributeList.foldl_push_of_all {l : AttributeList} (h : l.all = true) (attrs : List Text) :
    attrs.foldl push l = l := by
  induction attrs with
  | nil => rfl
  | cons attr attrs ih =>
      rw [List.foldl_cons, push, if_pos h]
      exact ih

/--
Two names are equivalent if they are written the same but for the case of letters, of whatever
kind they are.  Each kind of list holds what was pushed first of each class, and a push changes
nothing exactly if its class was there before; the list of all attributes takes nothing in, and
names that are collected are those that are pushed one by one.
-/
theorem pushed_lists_keep_firsts :
    (∀ a b : NameEntry, a.same b = true ↔ Text.lower a.text = Text.lower b.text) ∧
    KeepsFirsts NameEntry.same NameList.empty NameList.push NameList.items ∧
    KeepsFirsts Text.sameFold AddressList.empty AddressList.push AddressList.addresses ∧
    KeepsFirsts Text.sameFold DomainList.empty DomainList.push DomainList.names ∧
    KeepsFirsts Text.sameFold AttributeList.empty AttributeList.push AttributeList.attributes ∧
    KeepsFirsts (fun a b => a == b) ObjectIdList.empty ObjectIdList.push ObjectIdList.items ∧
    (∀ attrs : List Text, attrs.foldl AttributeList.push .everything = .everything) ∧
    ∀ names : List NameEntry, NameList.ofList names = names.foldl NameList.push .empty := by
  refine ⟨fun a b => NameEntry.same_iff, ?_, ?_, ?_, ?_, ?_, ?_, fun names => ?_⟩
  · exact NameList.isPushed.keepsFirsts NameEntry.equivalence_same
  · exact AddressList.isPushed.keepsFirsts Text.equivalence_sameFold
  · exact DomainList.isPushed.keepsFirsts Text.equivalence_sameFold
  · exact AttributeList.isPushed.keepsFirsts Text.equivalence_sameFold
  · exact ObjectIdList.isPushed.keepsFirsts ObjectId.equivalence_beq
  · exact AttributeList.foldl_push_of_all rfl
  · exact (NameList.isPushed.foldl_push names).symm

example : (["b".toList, "a".toList, "B".toList].foldl AddressList.push .empty).addresses =
    ["b".toList, "a".toList] := by
  decide

end DirectoryAccess
