import DirectoryAccess.Proofs.Findings
import DirectoryAccess.Proofs.Value.Line

/-!
# What messages cite

A message puts its own words around the texts that it cites, or shows a text in
its displayed form, which has no line feed.  So it is one line if the texts that
it cites are on one line each.
-/

namespace DirectoryAccess

open Text (IsLine)

namespace Text

/-- A numeral is written with the digits below its base. -/
theorem exists_digitChar_of_mem_toDigitsCore {base : Nat} (hbase : 0 < base) {fuel n : Nat}
    {ds : List Char} {c : Char} (h : c ∈ Nat.toDigitsCore base fuel n ds) :
    c ∈ ds ∨ ∃ d < base, c = Nat.digitChar d := by
  induction fuel generalizing n ds with
  | zero => exact .inl h
  | succ fuel ih =>
      have hdigit : c ∈ (n % base).digitChar :: ds → c ∈ ds ∨ ∃ d < base, c = Nat.digitChar d := by
        intro h
        rcases List.mem_cons.1 h with rfl | h
        · exact .inr ⟨n % base, Nat.mod_lt n hbase, rfl⟩
        · exact .inl h
      rw [Nat.toDigitsCore] at h
      split at h
      · exact hdigit h
      · exact (ih h).elim hdigit .inr

theorem isLine_toDigits {base : Nat} (hbase : 0 < base) (hle : base ≤ 16) (n : Nat) :
    IsLine (Nat.toDigits base n) :=
  isLine_of_forall fun c hc => by
    have hdigits : ∀ d < 16, Nat.digitChar d ≠ '\n' := by decide
    rcases exists_digitChar_of_mem_toDigitsCore hbase hc with hc | ⟨d, hd, rfl⟩
    · cases hc
    · exact hdigits d (by omega)

theorem isLine_displayChar (c : Char) : IsLine (displayChar c) := by
  unfold displayChar
  split
  case h_7 hnewline =>
    split
    · simpa [displayCode] using isLine_toDigits (by decide) (by decide) c.toNat
    · simpa using hnewline
  all_goals decide

theorem isLine_display (t : Text) : IsLine (display t) :=
  isLine_quote_iff.2 (IsLine.flatMap fun c _ => isLine_displayChar c)

end Text

/-- Words that are written out are compared as lists of characters, which is quick. -/
theorem isLine_ofList {t : Text} (h : IsLine t) : IsLine (String.ofList t).toList := by
  rwa [String.toList_ofList]

@[simp] theorem isLine_toString_iff {s : String} : IsLine (toString s).toList ↔ IsLine s.toList :=
  Iff.rfl

theorem Operator.isLine_display (op : Operator) : IsLine op.display := by
  cases op <;> decide

theorem BindTokenKind.isLine_display (kind : BindTokenKind) : IsLine kind.display := by
  rcases kind with _ | _ | _ | _ | _ | _ | op | quoted
  case operator =>
    unfold display
    simpa using op.isLine_display
  case value => cases quoted <;> decide
  all_goals decide

theorem TargetToken.isLine_displayFound (found : Option TargetToken) :
    IsLine (displayFound found) := by
  rcases found with _ | _ | _ | op | _ | name | text
  case some.operator =>
    unfold displayFound display
    simpa using op.isLine_display
  case some.keyword =>
    unfold displayFound display
    simpa using Text.isLine_display name
  case some.value =>
    unfold displayFound display
    simpa using Text.isLine_display text
  all_goals decide

theorem Keyword.isLine_name (k : Keyword) : IsLine k.name := by
  cases k with
  | bind k => exact k.isLine_name
  | target k => exact k.isLine_name

theorem Subject.isLine_text (subject : Subject) : IsLine subject.text := by
  cases subject with
  | keyword k => exact k.isLine_name
  | _ => decide

theorem FilterNeed.isLine_code (need : FilterNeed) : IsLine need.code.toList := by
  cases need <;> decide

@[simp] theorem isLine_toDigits_ten (n : Nat) : IsLine (Nat.toDigits 10 n) :=
  Text.isLine_ofNat n

theorem isLine_toString_nat (n : Nat) : IsLine (toString n).toList := by
  simp

theorem isLine_twoDigits (n : Nat) : IsLine (twoDigits n).toList := by
  unfold twoDigits
  split <;> simp

namespace ValueFault

/-- The texts that a value fault cites as they are. -/
def cited : ValueFault → List Text
  | wrongShape value _ => [value]
  | within _ fault => fault.cited
  | noEqualsSign component whole => [component, whole]
  | badAttributeType attr whole => [attr, whole]
  | noAttributeValue attr whole => [attr, whole]
  | wildcard whole => [whole]
  | noName raw => [raw]
  | urlNotPermitted entry => [entry]
  | malformedFilter whole _ _ => [whole]
  | tooFewArcs text => [text]
  | nonNumericArc text => [text]
  | leadingZero text => [text]
  | noObjectId raw => [raw]
  | badLevel token => [token]
  | openInheritance raw => [raw]
  | noDotAfterInheritance raw => [raw]
  | noHash raw => [raw]
  | badAttribute attr => [attr]
  | noValueAfterHash raw => [raw]
  | inheritanceWithoutName raw => [raw]
  | noAttributes raw => [raw]
  | noOperationName segment => [segment]
  | badOperation name => [name]
  | noColon clause => [clause]
  | noOperations raw => [raw]
  | unknownScope name => [name]
  | noDay raw => [raw]
  | notFourDigits raw => [raw]
  | notStrength raw => [raw]
  | unknownMethod raw => [raw]
  | badAddress address => [address]
  | noAddress raw => [raw]
  | longDomain name => [name]
  | tooFewLabels name => [name]
  | badLabel label name => [label, name]
  | noDomain raw => [raw]
  | _ => []

theorem isLine_reason {f : ValueFault} (h : ∀ t ∈ f.cited, IsLine t) : IsLine f.reason.toList := by
  induction f with
  | within subject fault ih =>
      unfold reason
      simpa [invalidValueMessage, subject.isLine_text] using ih h
  | wrongShape value keyword =>
      unfold reason
      simpa [cited, keyword.isLine_name] using h
  | malformedFilter whole fragment need =>
      unfold reason
      simpa [cited, Text.isLine_display, need.isLine_code] using h
  | badClockTime hour minute =>
      unfold reason
      simp [isLine_twoDigits]
  | _ =>
      unfold reason
      try simp only [String.toList_append, Text.isLine_append_iff, isLine_toString_iff,
        String.toList_ofList, isLine_toString_nat, and_true]
      and_intros <;> first
        | exact isLine_ofList (by decide)
        | exact h _ (by simp [cited])

end ValueFault

namespace ScanFault

def cited : ScanFault → List Text
  | noToken _ place => [place.fragment]
  | openQuote _ place => [place.fragment]
  | emptyToken _ whole => [whole]

theorem isLine_message {f : ScanFault} (h : ∀ t ∈ f.cited, IsLine t) :
    IsLine f.message.toList := by
  have hname (rule : RuleKind) : IsLine rule.name.toList := by cases rule <;> decide
  cases f with
  | noToken rule place =>
      unfold message Place.message
      simpa [cited, hname rule] using h
  | openQuote rule place =>
      unfold message Place.message
      simpa [cited, hname rule] using h
  | emptyToken kind whole =>
      unfold message
      simpa [cited, kind.isLine_display] using h

end ScanFault

namespace GrammarFault

def cited : GrammarFault → List Text
  | unknownOperator text => [text]
  | tooFewTokens _ whole => [whole]
  | leftover token whole => [token, whole]
  | noConnective token => [token]
  | noOperandAt token => [token]
  | noComparison condition => [condition]
  | badCondition _ condition => [condition]
  | notPermission text => [text]
  | noRightsParen text => [text]
  | unknownDisposition name text => [name, text]
  | noPermission text => [text]
  | noStatement text => [text]
  | noVersion text => [text]
  | noLabelEnd label => [label]
  | noInstructionEnd label => [label]
  | _ => []

theorem isLine_message {f : GrammarFault} (h : ∀ t ∈ f.cited, IsLine t) :
    IsLine f.message.toList := by
  cases f with
  | badCondition op condition =>
      unfold message
      simpa [cited, op.isLine_symbol] using h
  | noClause found =>
      unfold message
      simp [TargetToken.isLine_displayFound]
  | noEquality keyword found =>
      unfold message
      simp [TargetToken.isLine_displayFound, keyword.isLine_name]
  | noQuotedValue keyword found =>
      unfold message
      simp [TargetToken.isLine_displayFound, keyword.isLine_name]
  | noSeparator keyword found =>
      unfold message
      simp [TargetToken.isLine_displayFound, keyword.isLine_name]
  | _ =>
      unfold message
      try simp only [String.toList_append, Text.isLine_append_iff, isLine_toString_iff,
        String.toList_ofList, isLine_toString_nat, and_true]
      and_intros <;> first
        | exact isLine_ofList (by decide)
        | exact h _ (by simp [cited])

end GrammarFault

namespace RuleFault

def cited : RuleFault → List Text
  | noPlaceForOperand rule => [rule]
  | openLabel label => [label]
  | _ => []

theorem isLine_message {f : RuleFault} (h : ∀ t ∈ f.cited, IsLine t) :
    IsLine f.message.toList := by
  cases f with
  | unknownRights bits =>
      unfold message
      simp [Text.isLine_toDigits (by decide : 0 < 2) (by decide) bits]
  | _ =>
      unfold message
      try simp only [String.toList_append, Text.isLine_append_iff, isLine_toString_iff,
        String.toList_ofList, isLine_toString_nat, and_true]
      and_intros <;> first
        | exact isLine_ofList (by decide)
        | exact h _ (by simp [cited])

end RuleFault

namespace Error

mutual

def cited : Error → List Text
  | scan fault => fault.cited
  | grammar fault => fault.cited
  | unknownKeyword name => [name]
  | operatorNotPermitted _ _ => []
  | invalidValue _ fault => fault.cited
  | unknownRight name => [name]
  | rule fault => fault.cited
  | several errors => citedByAll errors

def citedByAll : List Error → List Text
  | [] => []
  | e :: es => cited e ++ citedByAll es

end

mutual

/-- Together, errors cite what each of their single faults cites. -/
theorem cited_eq_flatMap_leaves (e : Error) : e.cited = e.leaves.flatMap cited := by
  cases e with
  | several errors => rw [cited, leaves, citedByAll_eq_flatMap_leaves]
  | _ => simp [leaves]

theorem citedByAll_eq_flatMap_leaves (es : List Error) :
    citedByAll es = (leavesOfAll es).flatMap cited := by
  cases es with
  | nil => rfl
  | cons e es =>
      rw [citedByAll, leavesOfAll, List.flatMap_append, cited_eq_flatMap_leaves,
        citedByAll_eq_flatMap_leaves]

end

mutual

/-- An error is told on one line if every text that it cites is on one line. -/
theorem isLine_message {e : Error} (h : ∀ t ∈ e.cited, IsLine t) : IsLine e.message.toList := by
  cases e with
  | scan fault =>
      unfold message
      simpa using ScanFault.isLine_message (by simpa [cited] using h)
  | grammar fault =>
      unfold message
      simpa using GrammarFault.isLine_message (by simpa [cited] using h)
  | unknownKeyword name =>
      unfold message
      simpa [cited] using h
  | operatorNotPermitted keyword op =>
      unfold message
      simp [op.isLine_symbol, keyword.isLine_name]
  | invalidValue subject fault =>
      unfold message invalidValueMessage
      simpa [subject.isLine_text] using ValueFault.isLine_reason (by simpa [cited] using h)
  | unknownRight name =>
      unfold message
      simpa [cited] using h
  | rule fault =>
      unfold message
      simpa using RuleFault.isLine_message (by simpa [cited] using h)
  | several errors =>
      unfold message
      rw [String.toList_intercalate]
      refine IsLine.join (by decide) fun m hm => ?_
      obtain ⟨told, htold, rfl⟩ := List.mem_map.1 hm
      exact isLine_messages (by simpa [cited] using h) told htold

theorem isLine_messages {es : List Error} (h : ∀ t ∈ citedByAll es, IsLine t) :
    ∀ m ∈ messages es, IsLine m.toList := by
  cases es with
  | nil => simp [messages]
  | cons e es =>
      rw [citedByAll] at h
      rw [messages, List.forall_mem_cons]
      exact ⟨isLine_message fun t ht => h t (List.mem_append_left _ ht),
        isLine_messages fun t ht => h t (List.mem_append_right _ ht)⟩

end

end Error

end DirectoryAccess
