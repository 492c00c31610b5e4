import TreeScript.Proofs.Answers
import TreeScript.Proofs.NumberTexts
import TreeScript.Proofs.NaN
/-!
# Loose equality

Loose equality is symmetric and transitive on all values. Arrays, closures and resources keep to
equality by kind, which compares item by item. Every other value is seen either as a number or as
its text, and which of the two it is can be told from the text alone: the text of a number reads as
one, and no other value but a string has a text that does. So no chain of equal values leads from
one view to the other.

A value equals itself unless what is compared is not a number. That is so for a double that is none
and for an array with such an item, but also for a text that is read as none.
-/

set_option autoImplicit false

namespace TreeScript.Value

section Kinds

theorem beq_alike {Item : Type} [BEq Item] [PartialEquivBEq Item] {a b : Item}
    (given : (a == b) = true) : (a == a) = true ∧ ∀ c, (a == c) = (b == c) :=
  ⟨PartialEquivBEq.trans given (PartialEquivBEq.symm given), fun _ => BEq.congr_left given⟩

/-- Equal values that are not arrays are equal to the same values. -/
theorem same_cases {first second : Value} (given : same first second = true) :
    (∃ items others, first = .array items ∧ second = .array others ∧
      sameItems items others = true) ∨
    (same first first = true ∧ ∀ other, same first other = same second other) := by
  cases first with
  | array items =>
      cases second with
      | array others => exact Or.inl ⟨items, others, rfl, rfl, given⟩
      | _ => cases given
  | _ =>
      refine Or.inr ?_
      cases second <;> first
        | exact ⟨rfl, fun _ => rfl⟩
        | cases given
        | exact ⟨given, fun _ => rfl⟩
        | exact ⟨(beq_alike given).1, fun other => by
            cases other <;> first | rfl | exact (beq_alike given).2 _⟩

theorem same_items_symm {items others : List Value}
    (each : ∀ item ∈ items, ∀ other, same item other = true → same other item = true)
    (given : sameItems items others = true) : sameItems others items = true := by
  induction items generalizing others with
  | nil =>
      cases others with
      | nil => rfl
      | cons other others => cases given
  | cons item items induction =>
      cases others with
      | nil => cases given
      | cons other others =>
          rw [sameItems, Bool.and_eq_true] at given ⊢
          exact ⟨each item List.mem_cons_self other given.1,
            induction (fun item member => each item (List.mem_cons_of_mem _ member)) given.2⟩

theorem same_items_trans {items others more : List Value}
    (each : ∀ item ∈ items, ∀ other third, same item other = true → same other third = true →
      same item third = true)
    (before : sameItems items others = true) (after : sameItems others more = true) :
    sameItems items more = true := by
  induction items generalizing others more with
  | nil =>
      cases others with
      | nil => exact after
      | cons other others => cases before
  | cons item items induction =>
      cases others with
      | nil => cases before
      | cons other others =>
          cases more with
          | nil => cases after
          | cons third more =>
              rw [sameItems, Bool.and_eq_true] at before after ⊢
              have rest : ∀ item ∈ items, _ := fun item member =>
                each item (List.mem_cons_of_mem _ member)
              exact ⟨each item List.mem_cons_self other third before.1 after.1,
                induction rest before.2 after.2⟩

theorem size_lt_of_item {items : List Value} {item : Value} (member : item ∈ items) :
    sizeOf item < sizeOf (Value.array items) := by
  have small := List.sizeOf_lt_of_mem member
  rw [Value.array.sizeOf_spec]
  omega

/-- Arrays are compared item by item, so this is by recursion into them. -/
theorem same_symm (first second : Value) (given : same first second = true) :
    same second first = true := by
  obtain ⟨items, others, whole, rfl, sames⟩ | ⟨self, alike⟩ := same_cases given
  · rw [whole]
    exact same_items_symm (fun item member other => same_symm item other) sames
  · rw [← alike]
    exact self
termination_by sizeOf first
decreasing_by
  rw [whole]
  exact size_lt_of_item member

theorem same_trans (first second third : Value) (before : same first second = true)
    (after : same second third = true) : same first third = true := by
  obtain ⟨items, others, whole, rfl, sames⟩ | ⟨-, alike⟩ := same_cases before
  · obtain ⟨others', more, whole', rfl, sames'⟩ | ⟨-, alike⟩ := same_cases after
    · cases whole'
      rw [whole]
      exact same_items_trans (fun item member => same_trans item) sames sames'
    · -- The third value equals what the second one equals, and that is the first one.
      refine same_symm third first ?_
      rw [← alike]
      exact same_symm first _ before
  · rw [alike]
    exact after
termination_by sizeOf first
decreasing_by
  rw [whole]
  exact size_lt_of_item member

end Kinds

section Reflexivity

mutual

def holdsNaN : Value → Bool
  | double number => number.isNaN
  | array items => anyHoldsNaN items
  | _ => false

def anyHoldsNaN : List Value → Bool
  | [] => false
  | item :: rest => holdsNaN item || anyHoldsNaN rest

end

mutual

theorem same_self_iff : (value : Value) → (same value value = true ↔ holdsNaN value = false)
  | array items => same_items_self_iff items
  | double number => by
      change (number == number) = true ↔ number.isNaN = false
      rw [Double.beq_self_iff_number, Double.number_iff]
  | void => by simp [same, holdsNaN]
  | null => by simp [same, holdsNaN]
  | bool flag => by simp [same, holdsNaN]
  | int number => by simp [same, holdsNaN]
  | string text => by simp [same, holdsNaN]
  | closure callee => by simp [same, holdsNaN]
  | resource handle => by simp [same, holdsNaN]

theorem same_items_self_iff :
    (items : List Value) → (sameItems items items = true ↔ anyHoldsNaN items = false)
  | [] => by simp [sameItems, anyHoldsNaN]
  | item :: rest => by
      rw [sameItems, anyHoldsNaN, Bool.and_eq_true, Bool.or_eq_false_iff, same_self_iff item,
        same_items_self_iff rest]

end

end Reflexivity

end TreeScript.Value

namespace TreeScript.Prelude

def keepsToKind : Value → Bool
  | .array _ | .closure _ | .resource _ => true
  | _ => false

inductive View where
  | number (value : Float)
  | text (text : String)

def View.same : View → View → Bool
  | number first, number second => first == second
  | text first, text second => first == second
  | _, _ => false

def view (value : Value) : View :=
  match Number.ofValue value with
  | .ok number => .number number.toDouble
  | .error _ => .text value.text

section Views

variable {first second third : Value}

theorem read_number_iff {value : Value} {fault fault' : Fault}
    (failed : Number.ofValue value = .error fault)
    (failed' : Number.ofValue (.string value.text) = .error fault') :
    (∃ number, Number.ofValue (.string value.text) = .ok number) ↔
      ∃ number, Number.ofValue value = .ok number := by
  constructor
  · rintro ⟨number, read⟩
    exact nomatch failed'.symm.trans read
  · rintro ⟨number, read⟩
    exact nomatch failed.symm.trans read

/-- Whether a value counts as a number shows in its text. -/
theorem number_of_text (plain : keepsToKind first = false) :
    (∃ number, Number.ofValue (.string first.text) = .ok number) ↔
      ∃ number, Number.ofValue first = .ok number := by
  cases first with
  | void => exact read_number_iff rfl (rfl : Number.ofValue (.string "") = .error _)
  | null => exact read_number_iff rfl (rfl : Number.ofValue (.string "null") = .error _)
  | bool flag =>
      cases flag with
      | false => exact read_number_iff rfl (rfl : Number.ofValue (.string "false") = .error _)
      | true => exact read_number_iff rfl (rfl : Number.ofValue (.string "true") = .error _)
  | int number => exact ⟨fun _ => ⟨_, rfl⟩, fun _ => ⟨_, Number.of_value_integer_text number⟩⟩
  | double number => exact ⟨fun _ => ⟨_, rfl⟩, fun _ => Number.of_value_double_text number⟩
  | string text => exact Iff.rfl
  | array items => cases plain
  | closure callee => cases plain
  | resource handle => cases plain

theorem compared_views (plain : keepsToKind first = false) (plain' : keepsToKind second = false) :
    (match Number.ofValue first, Number.ofValue second with
      | .ok a, .ok b => a.toDouble == b.toDouble
      | _, _ => first.text == second.text) = (view first).same (view second) := by
  have reads := number_of_text plain
  have reads' := number_of_text plain'
  unfold view
  cases found : Number.ofValue first with
  | error fault =>
      cases found' : Number.ofValue second with
      | error fault' => rfl
      | ok number' =>
          refine beq_eq_false_iff_ne.mpr fun same => ?_
          rw [same] at reads
          exact nomatch found.symm.trans (reads.mp (reads'.mpr ⟨number', found'⟩)).choose_spec
  | ok number =>
      cases found' : Number.ofValue second with
      | error fault' =>
          refine beq_eq_false_iff_ne.mpr fun same => ?_
          rw [← same] at reads'
          exact nomatch found'.symm.trans (reads'.mp (reads.mpr ⟨number, found⟩)).choose_spec
      | ok number' => rfl

/-- Values that do not keep to their kind are compared as they are seen. -/
theorem loosely_equal_plain (plain : keepsToKind first = false)
    (plain' : keepsToKind second = false) :
    looselyEqual first second = (view first).same (view second) := by
  unfold looselyEqual
  split
  case h_1 a b => cases a <;> cases b <;> decide
  case h_2 => decide
  case h_3 => decide
  case h_10 => exact compared_views plain plain'
  all_goals simp [keepsToKind] at plain plain'

theorem loosely_equal_kind (keeps : keepsToKind first = true ∨ keepsToKind second = true) :
    looselyEqual first second = Value.same first second := by
  cases first <;> cases second <;> first
    | rfl
    | simp [keepsToKind] at keeps

theorem View.same_symm {one other : View} (given : one.same other = true) :
    other.same one = true := by
  cases one <;> cases other <;> first
    | exact PartialEquivBEq.symm given
    | cases given

theorem View.same_trans {one other third : View} (before : one.same other = true)
    (after : other.same third = true) : one.same third = true := by
  cases one <;> cases other <;> cases third <;> first
    | exact PartialEquivBEq.trans before after
    | cases before
    | cases after

theorem keeps_to_kind_of_same (given : Value.same first second = true) :
    keepsToKind first = keepsToKind second := by
  cases first <;> cases second <;> first
    | rfl
    | cases given

theorem loosely_equal_symm (given : looselyEqual first second = true) :
    looselyEqual second first = true := by
  by_cases keeps : keepsToKind first = true ∨ keepsToKind second = true
  · rw [loosely_equal_kind keeps] at given
    rw [loosely_equal_kind keeps.symm]
    exact Value.same_symm _ _ given
  · rw [not_or, Bool.not_eq_true, Bool.not_eq_true] at keeps
    rw [loosely_equal_plain keeps.1 keeps.2] at given
    rw [loosely_equal_plain keeps.2 keeps.1]
    exact View.same_symm given

/-- A value that keeps to its kind equals only values that keep to theirs. -/
theorem keeps_to_kind_of_equal (given : looselyEqual first second = true) :
    keepsToKind first = keepsToKind second := by
  by_cases keeps : keepsToKind first = true ∨ keepsToKind second = true
  · rw [loosely_equal_kind keeps] at given
    exact keeps_to_kind_of_same given
  · rw [not_or, Bool.not_eq_true, Bool.not_eq_true] at keeps
    rw [keeps.1, keeps.2]

theorem loosely_equal_trans (before : looselyEqual first second = true)
    (after : looselyEqual second third = true) : looselyEqual first third = true := by
  have kinds := keeps_to_kind_of_equal before
  have kinds' := keeps_to_kind_of_equal after
  cases keeps : keepsToKind second with
  | true =>
      rw [loosely_equal_kind (Or.inr keeps)] at before
      rw [loosely_equal_kind (Or.inl keeps)] at after
      rw [loosely_equal_kind (Or.inl (kinds.trans keeps))]
      exact Value.same_trans _ _ _ before after
  | false =>
      have plain := kinds.trans keeps
      have plain' := kinds'.symm.trans keeps
      rw [loosely_equal_plain plain keeps] at before
      rw [loosely_equal_plain keeps plain'] at after
      rw [loosely_equal_plain plain plain']
      exact View.same_trans before after

end Views

section Reflexivity

variable {value : Value}

/-- Nothing in a value is compared as what is not a number: no double is it, also in the items of an
array, and the value is not a text that is read as it. -/
structure EqualsItself (value : Value) : Prop where
  doubles : value.holdsNaN = false
  text : ∀ text, value = .string text → Double.namesNaN (Text.trimmed text.toList) = false

theorem view_self_iff (value : Value) : (view value).same (view value) = true ↔
    ∀ number, Number.ofValue value = .ok number → Double.IsNumber number.toDouble := by
  unfold view
  cases Number.ofValue value with
  | error fault => exact ⟨fun _ _ found => (nomatch found), fun _ => beq_self_eq_true _⟩
  | ok number =>
      change (number.toDouble == number.toDouble) = true ↔ _
      rw [Double.beq_self_iff_number]
      constructor
      · rintro other _ ⟨⟩
        exact other
      · exact fun all => all number rfl

/-- A number is compared as itself, and a text as the number that is read from it, if any. -/
theorem equals_itself_plain (plain : keepsToKind value = false) :
    (∀ number, Number.ofValue value = .ok number → Double.IsNumber number.toDouble) ↔
      EqualsItself value := by
  cases value with
  | void => exact ⟨fun _ => ⟨rfl, nofun⟩, fun _ _ found => nomatch found⟩
  | null => exact ⟨fun _ => ⟨rfl, nofun⟩, fun _ _ found => nomatch found⟩
  | bool flag => exact ⟨fun _ => ⟨rfl, nofun⟩, fun _ _ found => nomatch found⟩
  | int word =>
      refine ⟨fun _ => ⟨rfl, nofun⟩, ?_⟩
      rintro - _ ⟨⟩
      exact Number.number_of_integer word
  | double x =>
      constructor
      · intro all
        have number : Double.IsNumber x := all (.double x) rfl
        exact ⟨(Double.number_iff x).mp number, nofun⟩
      · rintro ⟨number, -⟩ _ ⟨⟩
        have number : x.isNaN = false := number
        exact (Double.number_iff x).mpr number
  | string text =>
      rw [Number.of_value_string_number]
      constructor
      · intro other
        refine ⟨rfl, ?_⟩
        rintro _ ⟨⟩
        exact other
      · exact fun itself => itself.text text rfl
  | array items => cases plain
  | closure callee => cases plain
  | resource handle => cases plain

theorem loosely_equal_self_iff : looselyEqual value value = true ↔ EqualsItself value := by
  cases keeps : keepsToKind value with
  | true =>
      rw [loosely_equal_kind (Or.inl keeps), Value.same_self_iff]
      refine ⟨fun number => ⟨number, ?_⟩, EqualsItself.doubles⟩
      rintro text rfl
      cases keeps
  | false => rw [loosely_equal_plain keeps keeps, view_self_iff, equals_itself_plain keeps]

end Reflexivity

def LooselyEqual (first second : Value) : Prop :=
  Answers "equals" [first, second] (.ok (.bool true))

theorem equals_answers (first second : Value) :
    Answers "equals" [first, second] (.ok (.bool (looselyEqual first second))) := by
  have found : ∃ isPure docs, registry.find? "equals" =
      some (ofArguments "equals" (.exactly 2) isPure docs equals) := ⟨_, _, rfl⟩
  exact answers_of_arguments found _ rfl

theorem loosely_equal_iff (first second : Value) :
    LooselyEqual first second ↔ looselyEqual first second = true := by
  constructor
  · intro equal
    exact Value.bool.inj (Except.ok.inj ((equals_answers first second).unique equal))
  · intro equal
    have answer := equals_answers first second
    rwa [equal] at answer

/-- Loose equality always has an answer. It is symmetric and transitive, and a value equals itself
unless something in it is compared that is not a number. -/
theorem loose_equality (first second third : Value) :
    (∃ answer, Answers "equals" [first, second] (.ok (.bool answer))) ∧
    (LooselyEqual first first ↔ EqualsItself first) ∧
    (LooselyEqual first second ↔ LooselyEqual second first) ∧
    (LooselyEqual first second ∧ LooselyEqual second third → LooselyEqual first third) := by
  simp only [loosely_equal_iff]
  refine ⟨⟨_, equals_answers first second⟩, loosely_equal_self_iff, ?symmetric, ?transitive⟩
  case symmetric => exact ⟨loosely_equal_symm, loosely_equal_symm⟩
  case transitive =>
    rintro ⟨before, after⟩
    exact loosely_equal_trans before after

theorem loose_equality_of_padded_one :
    LooselyEqual (.string " 1 ") (.int 1) ∧ LooselyEqual (.int 1) (.double 1.0) ∧
      LooselyEqual (.string " 1 ") (.double 1.0) := by
  have before : LooselyEqual (.string " 1 ") (.int 1) :=
    (loosely_equal_iff _ _).mpr (by decide +kernel)
  have after : LooselyEqual (.int 1) (.double 1.0) :=
    (loosely_equal_iff _ _).mpr (by decide +kernel)
  obtain ⟨-, -, -, transitive⟩ := loose_equality (.string " 1 ") (.int 1) (.double 1.0)
  exact ⟨before, after, transitive ⟨before, after⟩⟩

/-- A text that spells what is not a number differs from itself, but not as an item of an array. -/
theorem spelled_nan_differs :
    Value.holdsNaN (.string "nan") = false ∧ ¬ LooselyEqual (.string "nan") (.string "nan") ∧
      LooselyEqual (.array [.string "nan"]) (.array [.string "nan"]) := by
  refine ⟨rfl, ?_, ?_⟩
  · rw [loosely_equal_iff, loosely_equal_self_iff]
    exact fun itself => nomatch itself.text "nan" rfl
  · rw [loosely_equal_iff, loosely_equal_self_iff]
    exact ⟨rfl, nofun⟩

end TreeScript.Prelude
