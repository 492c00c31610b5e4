import TreeScript.Proofs.LooseEquality
import TreeScript.Proofs.Standard
/-!
# Texts in the place of integers

The text of an integer, with blanks around it or without, can stand for the integer wherever a
function of the prelude looks for a number, and also where an array is asked for the item at an
index. All other arguments are free: the call has the same result, or fails with the same error.

An argument is only looked at as the number that is read from it. That is plain for arithmetic and
order. For loose equality it holds because a number is seen as a number, and because neither an
integer nor a text equals a value that keeps to its kind.
-/

namespace TreeScript.Prelude

set_option autoImplicit false

section Alike

variable {value other : Value}

theorem accumulate_reads (alike : Number.ofValue value = Number.ofValue other)
    (step : Number → Number → Except Fault Number) (before after : List Value) (total : Number) :
    Number.accumulate step total (before ++ value :: after) =
      Number.accumulate step total (before ++ other :: after) := by
  induction before generalizing total with
  | nil => simp only [List.nil_append, Number.accumulate, alike]
  | cons first before induction => simp only [List.cons_append, Number.accumulate, induction]

theorem fold_reads (alike : Number.ofValue value = Number.ofValue other)
    (operation needed : String) (step : Number → Number → Except Fault Number)
    (before after : List Value) :
    fold operation needed step (before ++ value :: after) =
      fold operation needed step (before ++ other :: after) := by
  cases before with
  | nil => simp only [List.nil_append, fold, alike]
  | cons first before => simp only [List.cons_append, fold, accumulate_reads alike]

/-- A function of the first two arguments is the same of two values if it is so in both places. -/
theorem pair_reads {function : Value × Value → Except Fault Value}
    (left : ∀ next, function (value, next) = function (other, next))
    (right : ∀ first, function (first, value) = function (first, other))
    (before after : List Value) :
    (twoArguments (before ++ value :: after) >>= function) =
      (twoArguments (before ++ other :: after) >>= function) := by
  match before, after with
  | [], [] => rfl
  | [], next :: _ => exact left next
  | [first], _ => exact right first
  | _ :: _ :: _, _ => rfl

theorem modulo_reads (alike : Number.ofValue value = Number.ofValue other)
    (before after : List Value) :
    modulo (before ++ value :: after) = modulo (before ++ other :: after) := by
  refine pair_reads (fun next => ?_) (fun first => ?_) before after
  · simp only [alike]
  · simp only [alike]

theorem compare_reads (alike : Number.ofValue value = Number.ofValue other)
    (order : Float → Float → Bool) (before after : List Value) :
    compare order (before ++ value :: after) = compare order (before ++ other :: after) := by
  refine pair_reads (fun next => ?_) (fun first => ?_) before after
  · simp only [alike]
  · simp only [alike]

theorem equals_reads (alike : ∀ next, looselyEqual value next = looselyEqual other next)
    (before after : List Value) :
    equals (before ++ value :: after) = equals (before ++ other :: after) := by
  have comm : ∀ first second, looselyEqual first second = looselyEqual second first := fun _ _ =>
    Bool.eq_iff_iff.mpr ⟨loosely_equal_symm, loosely_equal_symm⟩
  refine pair_reads (fun next => ?_) (fun first => ?_) before after
  · simp only [alike]
  · simp only [comm first, alike]

end Alike

section Padded

variable {word : Int64} {text : String}

theorem loosely_equal_padded (padded : Number.Padded word text) (next : Value) :
    looselyEqual (.int word) next = looselyEqual (.string text) next := by
  cases keeps : keepsToKind next with
  | true =>
      rw [loosely_equal_kind (Or.inr keeps), loosely_equal_kind (Or.inr keeps)]
      cases next <;> first
        | rfl
        | cases keeps
  | false =>
      have seen : view (.int word) = view (.string text) := by
        rw [view, view, Number.of_value_padded padded]
        rfl
      rw [loosely_equal_plain rfl keeps, loosely_equal_plain rfl keeps, seen]

theorem array_get_padded (padded : Number.Padded word text) (array : Value)
    (after : List Value) :
    arrayGet (array :: .int word :: after) = arrayGet (array :: .string text :: after) := by
  have read : (Value.string text).integer? = some word := by
    rw [Value.integer?, padded.trimmed, Integer.read_text]
  simp only [arrayGet, twoArguments, except_ok_bind, read]
  rfl

/-- The places where a function looks for a number: all of those of the numeric functions and of
loose equality, and the index into an array. -/
def IsNumericPlace (name : String) (place : Nat) : Prop :=
  name ∈ ["add", "subtract", "multiply", "divide", "modulo", "equals", "lt", "gt"] ∨
    name = "array_get" ∧ place = 1

/-- Where a function looks for a number, the text of an integer is as good as the integer. -/
theorem numeric_place_reads {name : String} {before : List Value}
    (numeric : IsNumericPlace name before.length) (padded : Number.Padded word text)
    (after : List Value) :
    ∃ arity isPure docs function,
      registry.find? name = some (ofArguments name arity isPure docs function) ∧
      function (before ++ .int word :: after) = function (before ++ .string text :: after) := by
  have alike := (Number.of_value_padded padded).symm
  obtain numeric | ⟨rfl, second⟩ := numeric
  · simp only [List.mem_cons, List.not_mem_nil, or_false] at numeric
    obtain rfl | rfl | rfl | rfl | rfl | rfl | rfl | rfl := numeric
    · exact ⟨_, _, _, add, rfl, fold_reads alike _ _ _ before after⟩
    · exact ⟨_, _, _, subtract, rfl, fold_reads alike _ _ _ before after⟩
    · exact ⟨_, _, _, multiply, rfl, fold_reads alike _ _ _ before after⟩
    · exact ⟨_, _, _, divide, rfl, fold_reads alike _ _ _ before after⟩
    · exact ⟨_, _, _, modulo, rfl, modulo_reads alike before after⟩
    · exact ⟨_, _, _, equals, rfl, equals_reads (loosely_equal_padded padded) before after⟩
    · exact ⟨_, _, _, lessThan, rfl, compare_reads alike _ before after⟩
    · exact ⟨_, _, _, greaterThan, rfl, compare_reads alike _ before after⟩
  · obtain ⟨array, rfl⟩ := List.length_eq_one_iff.mp second
    exact ⟨_, _, _, arrayGet, rfl, array_get_padded padded array after⟩

/-- Whatever a call makes of an integer in such a place, a value or an error, it makes of the text
of the integer, with blanks around it or without. -/
theorem text_stands_for_integer {name : String} {builtin : Builtin} {before after : List Value}
    (numeric : IsNumericPlace name before.length) (found : registry.find? name = some builtin)
    (accepted : builtin.arity.accepts (before ++ .int word :: after).length = true)
    (padded : Number.Padded word text) :
    ∃ result, Answers name (before ++ .int word :: after) result ∧
      Answers name (before ++ .string text :: after) result := by
  obtain ⟨arity, isPure, docs, function, found', same⟩ := numeric_place_reads numeric padded after
  obtain rfl := Option.some.inj (found.symm.trans found')
  refine ⟨_, answers_of_arguments ⟨_, _, found⟩ _ accepted, ?_⟩
  rw [same]
  refine answers_of_arguments ⟨_, _, found⟩ _ ?_
  rw [List.length_append, List.length_cons] at accepted ⊢
  exact accepted

/-- The least integer, between an em space and a line feed. -/
theorem text_stands_for_least_integer :
    ∃ result, Answers "divide" ([.int 7] ++ .int Int64.minValue :: []) result ∧
      Answers "divide" ([.int 7] ++ .string "\u2003-9223372036854775808\n" :: []) result := by
  have found : registry.find? "divide" = some (ofArguments "divide" (.atLeast 2) true
      (Docs.compose "number" "a, b, [c...]" "Divides the first argument by each following one.")
      divide) := rfl
  have padded : Number.Padded Int64.minValue "\u2003-9223372036854775808\n" :=
    ⟨['\u2003'], ['\n'], List.forall_mem_singleton.mpr rfl, List.forall_mem_singleton.mpr rfl,
      by decide⟩
  exact text_stands_for_integer (Or.inl (by decide)) found rfl padded

end Padded

end TreeScript.Prelude
