import TreeScript.Proofs.Arithmetic
/-!
# Comparison of integers

Two integers are compared as the doubles nearest to them. The order of the doubles is never the
wrong one, and exactly one of the three answers holds, but integers that differ beyond the 53rd
binary place may have one double between them. They count as equal then, and neither as less.
Integers up to `2 ^ 53` on both sides of zero are doubles themselves and are told apart.
-/

namespace TreeScript.Comparison

set_option autoImplicit false

open Double (roundedInt)

def Holds (name : String) (a b : Int64) : Prop :=
  Prelude.Answers name [.int a, .int b] (.ok (.bool true))

def OneHolds (a b : Int64) : Prop :=
  (Holds "lt" a b ∧ ¬ Holds "gt" a b ∧ ¬ Holds "equals" a b) ∨
    (¬ Holds "lt" a b ∧ Holds "gt" a b ∧ ¬ Holds "equals" a b) ∨
    (¬ Holds "lt" a b ∧ ¬ Holds "gt" a b ∧ Holds "equals" a b)

/-- Integers are compared as the integers that they are. -/
structure ComparedExactly (a b : Int64) : Prop where
  less : Holds "lt" a b ↔ a < b
  greater : Holds "gt" a b ↔ a > b
  equal : Holds "equals" a b ↔ a = b
  one : OneHolds a b
  difference : Holds "equals" a b → Prelude.Answers "subtract" [.int a, .int b] (.ok (.int 0))

/-- Each comparison has an answer, the one of the integers rounded to doubles. -/
structure ComparedRounded (a b : Int64) : Prop where
  less : Prelude.Answers "lt" [.int a, .int b]
    (.ok (.bool (decide (roundedInt a.toInt < roundedInt b.toInt))))
  greater : Prelude.Answers "gt" [.int a, .int b]
    (.ok (.bool (decide (roundedInt a.toInt > roundedInt b.toInt))))
  equal : Prelude.Answers "equals" [.int a, .int b]
    (.ok (.bool (decide (roundedInt a.toInt = roundedInt b.toInt))))

/-- What an answer says of the order is true, and an integer equals itself. -/
structure ComparedSoundly (a b : Int64) : Prop where
  less : Holds "lt" a b → a < b
  greater : Holds "gt" a b → a > b
  equal : a = b → Holds "equals" a b

section

variable {a b : Int64}

theorem compared_rounded (a b : Int64) : ComparedRounded a b := by
  have less : decide (Double.ofInteger a < Double.ofInteger b) =
      decide (roundedInt a.toInt < roundedInt b.toInt) :=
    decide_eq_decide.mpr (Double.of_integer_lt_iff a b)
  have greater : decide (Double.ofInteger b < Double.ofInteger a) =
      decide (roundedInt a.toInt > roundedInt b.toInt) :=
    decide_eq_decide.mpr (Double.of_integer_lt_iff b a)
  have equal : (Double.ofInteger a == Double.ofInteger b) =
      decide (roundedInt a.toInt = roundedInt b.toInt) :=
    Bool.eq_iff_iff.mpr ((Double.of_integer_beq_iff a b).trans decide_eq_true_iff.symm)
  have found : ∀ name function, (∃ isPure docs, Prelude.registry.find? name =
      some (Prelude.ofArguments name (.exactly 2) isPure docs function)) →
      Prelude.Answers name [.int a, .int b] (function [.int a, .int b]) :=
    fun _ _ found => Prelude.answers_of_arguments found _ rfl
  constructor
  · rw [← less]
    exact found "lt" Prelude.lessThan ⟨_, _, rfl⟩
  · rw [← greater]
    exact found "gt" Prelude.greaterThan ⟨_, _, rfl⟩
  · rw [← equal]
    exact found "equals" Prelude.equals ⟨_, _, rfl⟩

/-- A comparison that answers holds exactly if the answer is yes. -/
theorem holds_iff {name : String} {decision : Prop} [Decidable decision]
    (answer : Prelude.Answers name [.int a, .int b] (.ok (.bool (decide decision)))) :
    Holds name a b ↔ decision := by
  constructor
  · intro holds
    exact of_decide_eq_true (Value.bool.inj (Except.ok.inj (answer.unique holds)))
  · intro holds
    rw [decide_eq_true holds] at answer
    exact answer

theorem ComparedRounded.one_holds (compared : ComparedRounded a b) : OneHolds a b := by
  rw [OneHolds, holds_iff compared.less, holds_iff compared.greater, holds_iff compared.equal]
  omega

theorem subtract_self (a : Int64) : Prelude.Answers "subtract" [.int a, .int a] (.ok (.int 0)) := by
  have exactly : Arithmetic.ExactOrOverflow "subtract" (· - ·) a [a] :=
    Arithmetic.exact_subtraction
  have none : (0 : Int64).toInt = a.toInt - a.toInt := (Int.sub_self _).symm
  obtain ⟨word, answer, same⟩ := exactly.whole.mpr
    (Arithmetic.stays_in_range_cons.mpr ⟨0, none, Arithmetic.stays_in_range_nil 0⟩)
  obtain rfl : word = 0 := Int64.toInt_inj.mp (same.trans none.symm)
  exact answer

theorem lt_of_rounded_lt (less : roundedInt a.toInt < roundedInt b.toInt) : a < b :=
  Int64.lt_iff_toInt_lt.mpr
    (lt_of_not_ge fun least => not_le_of_gt less (Double.rounded_int_mono least))

theorem ComparedRounded.sound (compared : ComparedRounded a b) : ComparedSoundly a b where
  less := fun holds => lt_of_rounded_lt ((holds_iff compared.less).mp holds)
  greater := fun holds => lt_of_rounded_lt ((holds_iff compared.greater).mp holds)
  equal := fun same => (holds_iff compared.equal).mpr (by rw [same])

/-- Rounding keeps the order of integers that it does not make equal. -/
theorem rounded_lt_iff (apart : a = b ∨ roundedInt a.toInt ≠ roundedInt b.toInt) :
    roundedInt a.toInt < roundedInt b.toInt ↔ a < b := by
  refine ⟨lt_of_rounded_lt, fun less => ?_⟩
  have less := Int64.lt_iff_toInt_lt.mp less
  refine lt_of_le_of_ne (Double.rounded_int_mono less.le) (apart.resolve_left ?_)
  rintro rfl
  exact lt_irrefl _ less

theorem ComparedRounded.exact_iff (compared : ComparedRounded a b) :
    ComparedExactly a b ↔ a = b ∨ roundedInt a.toInt ≠ roundedInt b.toInt := by
  have equal := holds_iff compared.equal
  constructor
  · intro exactly
    rw [or_iff_not_imp_right, not_not, ← equal]
    exact exactly.equal.mp
  · intro apart
    have apart' : b = a ∨ roundedInt b.toInt ≠ roundedInt a.toInt := apart.imp Eq.symm Ne.symm
    have same : Holds "equals" a b ↔ a = b :=
      ⟨fun holds => apart.resolve_right (not_not_intro (equal.mp holds)), compared.sound.equal⟩
    refine ⟨?_, ?_, same, compared.one_holds, fun holds => ?_⟩
    · exact (holds_iff compared.less).trans (rounded_lt_iff apart)
    · exact (holds_iff compared.greater).trans (rounded_lt_iff apart')
    · rw [same.mp holds]
      exact subtract_self b

theorem compared_exactly_of_small (small : a.toInt.natAbs ≤ 2 ^ 53)
    (small' : b.toInt.natAbs ≤ 2 ^ 53) : ComparedExactly a b := by
  rw [(compared_rounded a b).exact_iff, Double.rounded_int_eq_self small,
    Double.rounded_int_eq_self small', ← Int64.toInt_inj]
  exact em _

end

/-- Any two integers are compared as their doubles, and one of the three answers holds, never with the
wrong order. This compares the integers themselves exactly if they are the same or have different
doubles. -/
theorem comparison_of_integers (a b : Int64) :
    ComparedRounded a b ∧ OneHolds a b ∧ ComparedSoundly a b ∧
      (ComparedExactly a b ↔ a = b ∨ roundedInt a.toInt ≠ roundedInt b.toInt) := by
  have compared := compared_rounded a b
  exact ⟨compared, compared.one_holds, compared.sound, compared.exact_iff⟩

/-- The first two positive integers with one double between them count as equal. -/
theorem neighbours_confused :
    Holds "equals" 9007199254740992 9007199254740993 ∧
    ¬ Holds "lt" 9007199254740992 9007199254740993 ∧
    ¬ ComparedExactly 9007199254740992 9007199254740993 := by
  have compared := compared_rounded 9007199254740992 9007199254740993
  have equal : Holds "equals" 9007199254740992 9007199254740993 :=
    (holds_iff compared.equal).mpr (by decide)
  refine ⟨equal, mt (holds_iff compared.less).mp (by decide), fun exactly => ?_⟩
  exact absurd (exactly.equal.mp equal) (by decide)

end TreeScript.Comparison
