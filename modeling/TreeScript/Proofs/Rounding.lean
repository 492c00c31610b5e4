import Mathlib
import TreeScript.Number.Double
/-!
# Integers as doubles

A double has room for 53 binary digits, and an integer that is longer is rounded to the nearest
double, half way to the even one. Here that rule is stated on integers alone, and the conversion is
shown to follow it: two integers that were converted compare as the rounded integers do.

Doubles are compared by exponent first and then by mantissa. That is the order of the numbers
because every mantissa has full length, so each double is measured in units of the least positive
one, and a whole number of those says all that a comparison looks at.
-/

namespace TreeScript.Double

set_option autoImplicit false

open Float.Model Float.Model.UnpackedFloat

section Rounding

/-- A number in units of `2 ^ places`: the nearest whole number, and half way the even one. -/
def nearest (number places : Nat) : Nat :=
  let whole := number / 2 ^ places
  let rest := number % 2 ^ places
  if 2 * rest < 2 ^ places then whole
  else if 2 * rest = 2 ^ places then whole + whole % 2
  else whole + 1

/-- The binary places of a number that a mantissa has no room for. -/
def surplus (number : Nat) : Nat := number.log2 - 52

/-- A number with all but its first 53 binary places rounded away. -/
def rounded (number : Nat) : Nat := nearest number (surplus number) * 2 ^ surplus number

def roundedInt (value : Int) : Int := value.sign * rounded value.natAbs

theorem nearest_zero (number : Nat) : nearest number 0 = number := by
  simp [nearest, Nat.mod_one]

theorem nearest_bounds (number places : Nat) :
    number / 2 ^ places ≤ nearest number places ∧
      nearest number places ≤ number / 2 ^ places + 1 := by
  unfold nearest
  dsimp only
  split
  · omega
  · split <;> omega

theorem nearest_mono {first second : Nat} (places : Nat) (below : first ≤ second) :
    nearest first places ≤ nearest second places := by
  have quotients : first / 2 ^ places ≤ second / 2 ^ places := Nat.div_le_div_right below
  rcases Nat.eq_or_lt_of_le quotients with same | apart
  · have parts := Nat.div_add_mod first (2 ^ places)
    have others := Nat.div_add_mod second (2 ^ places)
    rw [same] at parts
    have rests : first % 2 ^ places ≤ second % 2 ^ places := by omega
    unfold nearest
    dsimp only
    rw [same]
    split <;> split <;> try split <;> try split
    all_goals omega
  · have high := (nearest_bounds first places).2
    have low := (nearest_bounds second places).1
    omega

theorem nearest_scaled (number places more : Nat) :
    nearest (number * 2 ^ more) (places + more) = nearest number places := by
  have positive : 0 < 2 ^ more := Nat.two_pow_pos more
  unfold nearest
  dsimp only
  rw [Nat.pow_add, Nat.mul_div_mul_right _ _ positive, Nat.mul_mod_mul_right, ← Nat.mul_assoc]
  simp only [Nat.mul_lt_mul_right positive, Nat.mul_left_inj (Nat.ne_of_gt positive)]

theorem surplus_eq_zero {number : Nat} (short : number < 2 ^ 53) : surplus number = 0 := by
  rcases Nat.eq_zero_or_pos number with rfl | positive
  · rfl
  · have := (Nat.log2_lt (Nat.ne_of_gt positive)).mpr short
    unfold surplus
    omega

theorem rounded_eq_self {number : Nat} (small : number ≤ 2 ^ 53) : rounded number = number := by
  rcases Nat.eq_or_lt_of_le small with rfl | short
  · rfl
  · rw [rounded, surplus_eq_zero short, nearest_zero, Nat.pow_zero, Nat.mul_one]

/-- In front of the places that are rounded away stand exactly 53 binary digits. -/
theorem digits_kept {number : Nat} (full : 2 ^ 52 ≤ number) :
    2 ^ 52 ≤ number / 2 ^ surplus number ∧ number / 2 ^ surplus number < 2 ^ 53 := by
  have positive : number ≠ 0 := by omega
  have long : 52 ≤ number.log2 := (Nat.le_log2 positive).mpr full
  constructor
  · rw [Nat.le_div_iff_mul_le (Nat.two_pow_pos _), ← Nat.pow_add]
    have whole : 52 + surplus number = number.log2 := by unfold surplus; omega
    rw [whole]
    exact Nat.log2_self_le positive
  · rw [Nat.div_lt_iff_lt_mul (Nat.two_pow_pos _), ← Nat.pow_add]
    have whole : 53 + surplus number = number.log2 + 1 := by unfold surplus; omega
    rw [whole]
    exact Nat.lt_log2_self

theorem rounded_bounds {number : Nat} (positive : 0 < number) :
    2 ^ number.log2 ≤ rounded number ∧ rounded number ≤ 2 ^ (number.log2 + 1) := by
  rcases Nat.lt_or_ge number (2 ^ 52) with small | full
  · rw [rounded_eq_self (by omega)]
    exact ⟨Nat.log2_self_le (by omega), Nat.le_of_lt Nat.lt_log2_self⟩
  · have long : 52 ≤ number.log2 := (Nat.le_log2 (by omega)).mpr full
    have kept := digits_kept full
    have near := nearest_bounds number (surplus number)
    have lower : number.log2 = 52 + surplus number := by unfold surplus; omega
    have upper : number.log2 + 1 = 53 + surplus number := by omega
    rw [upper, lower, rounded, Nat.pow_add, Nat.pow_add]
    exact ⟨Nat.mul_le_mul_right _ (by omega), Nat.mul_le_mul_right _ (by omega)⟩

/-- Rounding never changes the order, not even between numbers of different lengths. -/
theorem rounded_mono {first second : Nat} (below : first ≤ second) :
    rounded first ≤ rounded second := by
  rcases Nat.eq_zero_or_pos first with rfl | positive
  · rw [rounded_eq_self (by decide)]
    exact Nat.zero_le _
  · have logs : first.log2 ≤ second.log2 :=
      (Nat.le_log2 (by omega)).mpr (Nat.le_trans (Nat.log2_self_le (by omega)) below)
    -- Between numbers of different lengths there is a power of two, which no rounding crosses.
    rcases Nat.eq_or_lt_of_le logs with same | apart
    · have alike : surplus first = surplus second := by unfold surplus; omega
      rw [rounded, rounded, alike]
      exact Nat.mul_le_mul_right _ (nearest_mono _ below)
    · calc rounded first ≤ 2 ^ (first.log2 + 1) := (rounded_bounds positive).2
        _ ≤ 2 ^ second.log2 := Nat.pow_le_pow_right (by decide) apart
        _ ≤ rounded second := (rounded_bounds (by omega)).1

theorem log2_scaled {number : Nat} (positive : number ≠ 0) (places : Nat) :
    (number * 2 ^ places).log2 = number.log2 + places := by
  have within := (Nat.log2_eq_iff positive).mp rfl
  rw [Nat.log2_eq_iff (Nat.mul_ne_zero positive (Nat.ne_of_gt (Nat.two_pow_pos _))), Nat.pow_add,
    Nat.add_right_comm, Nat.pow_add]
  exact ⟨Nat.mul_le_mul_right _ within.1, Nat.mul_lt_mul_of_pos_right within.2 (Nat.two_pow_pos _)⟩

theorem rounded_scaled {number : Nat} (full : 2 ^ 52 ≤ number) (places : Nat) :
    rounded (number * 2 ^ places) = rounded number * 2 ^ places := by
  have positive : number ≠ 0 := by omega
  have long : 52 ≤ number.log2 := (Nat.le_log2 positive).mpr full
  have more : surplus (number * 2 ^ places) = surplus number + places := by
    rw [surplus, surplus, log2_scaled positive]
    omega
  rw [rounded, more, nearest_scaled, Nat.pow_add, ← Nat.mul_assoc, ← rounded]

theorem rounded_int_natCast (number : Nat) : roundedInt number = rounded number := by
  cases number with
  | zero => rfl
  | succ number => exact Int.one_mul _

theorem rounded_int_neg (value : Int) : roundedInt (-value) = -roundedInt value := by
  rw [roundedInt, roundedInt, Int.sign_neg, Int.natAbs_neg, Int.neg_mul]

theorem rounded_int_eq_self {value : Int} (small : value.natAbs ≤ 2 ^ 53) :
    roundedInt value = value := by
  rw [roundedInt, rounded_eq_self small, Int.sign_mul_natAbs]

theorem rounded_int_mono {first second : Int} (below : first ≤ second) :
    roundedInt first ≤ roundedInt second := by
  have zero : rounded 0 = 0 := rounded_eq_self (by decide)
  obtain ⟨number, rfl | rfl⟩ := first.eq_nat_or_neg <;>
    obtain ⟨other, rfl | rfl⟩ := second.eq_nat_or_neg <;>
    simp only [rounded_int_neg, rounded_int_natCast]
  · exact_mod_cast rounded_mono (by omega)
  · obtain ⟨rfl, rfl⟩ : number = 0 ∧ other = 0 := by omega
    omega
  · omega
  · have order := rounded_mono (by omega : other ≤ number)
    omega

theorem rounded_int_eq_zero_iff {value : Int} : roundedInt value = 0 ↔ value = 0 := by
  constructor
  · intro zero
    by_contra other
    have positive : 0 < value.natAbs := Int.natAbs_pos.mpr other
    have bounds := (rounded_bounds positive).1
    have power := Nat.two_pow_pos value.natAbs.log2
    rcases Int.mul_eq_zero.mp zero with side | size
    · exact other (Int.sign_eq_zero_iff_zero.mp side)
    · omega
  · rintro rfl
    rfl

end Rounding

section Shifting

/-- A mantissa that is shifted leaves behind the last place that fell off, and whether anything
but zeros fell off before it. -/
theorem shifted_eq (mantissa places : Nat) :
    ExtendedMantissa.mk mantissa false false >>> (places + 1) =
      ⟨mantissa / 2 ^ (places + 1), mantissa / 2 ^ places % 2 != 0,
        mantissa % 2 ^ places != 0⟩ := by
  induction places with
  | zero => simp [HShiftRight.hShiftRight, Nat.repeat, ExtendedMantissa.shiftRightOne, Nat.mod_one]
  | succ places induction =>
      have positive := Nat.two_pow_pos places
      change ExtendedMantissa.shiftRightOne
        (ExtendedMantissa.mk mantissa false false >>> (places + 1)) = _
      -- The last place that had fallen off before joins the ones behind it.
      rw [induction, ExtendedMantissa.shiftRightOne, Nat.div_div_eq_div_mul, ← Nat.pow_succ,
        Nat.mod_pow_succ]
      congr 1
      rw [Bool.eq_iff_iff]
      simp only [Bool.or_eq_true, bne_iff_ne, ne_eq, Nat.add_eq_zero_iff, Nat.mul_eq_zero]
      omega

theorem shifted_mantissa (mantissa places : Nat) :
    (ExtendedMantissa.mk mantissa false false >>> places).mantissa = mantissa / 2 ^ places := by
  cases places with
  | zero => exact (Nat.div_one mantissa).symm
  | succ places => rw [shifted_eq]

/-- What is left behind is enough to round to the nearest. -/
theorem rounded_mantissa_shifted (mantissa places : Nat) :
    (ExtendedMantissa.mk mantissa false false >>> places).roundedMantissa =
      nearest mantissa places := by
  cases places with
  | zero => exact (nearest_zero mantissa).symm
  | succ places =>
      have bound := Nat.mod_lt mantissa (Nat.two_pow_pos places)
      rw [shifted_eq, nearest, Nat.mod_pow_succ, Nat.pow_succ]
      generalize mantissa / (2 ^ places * 2) = whole
      generalize mantissa % 2 ^ places = rest at bound
      generalize 2 ^ places = unit at bound
      -- The last place says on which side of the half, and the others whether on the half itself.
      rcases Nat.mod_two_eq_zero_or_one (mantissa / unit) with bit | bit <;>
        rcases Nat.eq_zero_or_pos rest with rfl | positive
      · have less : 2 * (0 + unit * 0) < unit * 2 := by omega
        rw [bit, if_pos less]
        rfl
      · have less : 2 * (rest + unit * 0) < unit * 2 := by omega
        have others : (rest != 0) = true := bne_iff_ne.mpr (Nat.ne_of_gt positive)
        rw [bit, if_pos less, others]
        rfl
      · have half : 2 * (0 + unit * 1) = unit * 2 := by omega
        rw [bit, if_neg (by omega), if_pos half]
        rfl
      · have others : (rest != 0) = true := bne_iff_ne.mpr (Nat.ne_of_gt positive)
        rw [bit, if_neg (by omega), if_neg (by omega), others]
        rfl

/-- A mantissa that has at least full length is shifted until it has that length. -/
theorem shift_to_target {mantissa : Nat} {exponent : Int} (full : 2 ^ 52 ≤ mantissa)
    (low : -1074 ≤ exponent) :
    shiftToTargetExponent .binary64 mantissa exponent .exact =
      (ExtendedMantissa.mk mantissa false false >>> surplus mantissa,
        exponent + surplus mantissa) := by
  have long : 52 ≤ mantissa.log2 := (Nat.le_log2 (by omega)).mpr full
  have places : (Format.binary64.targetExponent (totalExponent mantissa exponent) -
      exponent).toNat = surplus mantissa := by
    change (max ((mantissa.log2 : Int) + 1 + exponent - 53) (-1074) - exponent).toNat = _
    unfold surplus
    omega
  rw [shiftToTargetExponent, shiftToExponent, places]
  rfl

/-- A mantissa of full length is not rounded. -/
theorem round_full_length (sign : Sign) {mantissa : Nat} {exponent : Int}
    (full : 2 ^ 52 ≤ mantissa) (short : mantissa < 2 ^ 53) (low : -1074 ≤ exponent) :
    roundWithAccuracy .binary64 sign mantissa exponent .exact =
      .finite sign mantissa exponent (by omega) := by
  have shift : shiftToTargetExponent .binary64 mantissa exponent .exact =
      (ExtendedMantissa.mk mantissa false false, exponent) := by
    rw [shift_to_target full low, surplus_eq_zero short]
    exact congrArg _ (Int.add_zero exponent)
  have rounds : (ExtendedMantissa.mk mantissa false false).roundedMantissa = mantissa := rfl
  unfold roundWithAccuracy
  rw [shift]
  dsimp only
  rw [rounds, shift]
  exact dif_neg (by change mantissa ≠ 0; omega)

end Shifting

section Measure

def finest : Nat := 1074

def perUnit : Nat := 2 ^ finest

theorem per_unit_pos : 0 < perUnit := Nat.pow_pos (by decide)

theorem scaled_to_unit (number : Nat) {places more : Nat} (all : places + more = finest) :
    number * 2 ^ places * 2 ^ more = number * perUnit := by
  rw [Nat.mul_assoc, ← Nat.pow_add, all]
  rfl

/-- A double that is zero or has a mantissa of full length is this multiple of the least positive
double. -/
inductive Measures : UnpackedFloat → Int → Prop
  | zero (sign : Sign) : Measures (.zero sign) 0
  | finite (sign : Sign) {mantissa : Nat} {exponent : Int} (positive : 0 < mantissa) :
      2 ^ 52 ≤ mantissa → mantissa < 2 ^ 53 → -1074 ≤ exponent → exponent ≤ 971 →
      Measures (.finite sign mantissa exponent positive)
        (sign.apply (mantissa * 2 ^ (exponent + 1074).toNat : Nat))

variable {first second : UnpackedFloat} {measure other : Int}

theorem Measures.neg (measures : Measures first measure) : Measures first.neg (-measure) := by
  cases measures with
  | zero sign => exact .zero _
  | finite sign positive full short low high =>
      have same := Measures.finite (-sign) positive full short low high
      cases sign with
      | negative => exact Int.neg_neg _ ▸ same
      | positive => exact same

theorem mantissa_restored {mantissa : Nat} (full : 2 ^ 52 ≤ mantissa) (short : mantissa < 2 ^ 53) :
    (1#1 ++ BitVec.ofNat 52 mantissa).toNat = mantissa := by
  rw [BitVec.toNat_append, ← Nat.shiftLeft_add_eq_or_of_lt (BitVec.isLt _), Nat.shiftLeft_eq,
    BitVec.toNat_ofNat, BitVec.toNat_ofNat]
  omega

/-- An exponent is packed with a bias, which keeps it off the two patterns with a meaning of their
own, the least and the greatest. -/
theorem exponent_restored {exponent : Int} (low : -1074 ≤ exponent) (high : exponent ≤ 971) :
    (BitVec.ofNat 11 (exponent + 1075).toNat).toNat = (exponent + 1075).toNat ∧
      BitVec.ofNat 11 (exponent + 1075).toNat ≠ -1#11 ∧
      BitVec.ofNat 11 (exponent + 1075).toNat ≠ 0#11 := by
  have fits : (BitVec.ofNat 11 (exponent + 1075).toNat).toNat = (exponent + 1075).toNat := by
    rw [BitVec.toNat_ofNat, Nat.mod_eq_of_lt (by omega)]
  refine ⟨fits, ?_, ?_⟩ <;>
    · intro same
      rw [← BitVec.toNat_inj, fits] at same
      simp at same
      omega

theorem Measures.unpack_pack (measures : Measures first measure) :
    (Float.Model.pack first).unpack = first := by
  cases measures with
  | zero sign => exact unpack_packedZero
  | @finite sign mantissa exponent positive full short low high =>
      have length : mantissa.log2 + 1 = Format.binary64.mantissaBits := by
        have lower := (Nat.le_log2 (by omega)).mpr full
        have upper := (Nat.log2_lt (by omega)).mpr short
        change mantissa.log2 + 1 = 53
        omega
      have bias : (exponent + Format.binary64.exponentBias + (52 : Nat)).toNat =
          (exponent + 1075).toNat := by
        change (exponent + (1023 : Nat) + (52 : Nat)).toNat = _
        omega
      have place : ((exponent + 1075).toNat : Int) - ((1023 : Nat) + (52 : Nat)) = exponent := by
        omega
      obtain ⟨fits, greatest, least⟩ := exponent_restored low high
      change unpack .binary64 (UnpackedFloat.pack .binary64 _) = _
      rw [UnpackedFloat.pack]
      dsimp only
      rw [bias, if_neg (by omega), if_pos length, UnpackedFloat.unpack]
      simp only [unpackMantissa_packComponents, unpackExponent_packComponents,
        unpackSign_packComponents]
      rw [if_neg greatest, if_neg least, Sign.ofBitVec_toBitVec]
      congr 1
      · exact mantissa_restored full short
      · rw [fits]
        exact place

theorem Measures.packed (measures : Measures first measure) :
    Measures (Float.Model.pack first).unpack measure := by
  rw [measures.unpack_pack]
  exact measures

theorem measure_pos {mantissa : Nat} (exponent : Int) (positive : 0 < mantissa) :
    (0 : Int) < (mantissa * 2 ^ (exponent + 1074).toNat : Nat) := by
  exact_mod_cast Nat.mul_pos positive (Nat.two_pow_pos _)

theorem measure_lt {mantissa mantissa' : Nat} {exponent exponent' : Int}
    (short : mantissa < 2 ^ 53) (full : 2 ^ 52 ≤ mantissa') (low : -1074 ≤ exponent)
    (below : exponent < exponent') :
    mantissa * 2 ^ (exponent + 1074).toNat < mantissa' * 2 ^ (exponent' + 1074).toNat := by
  calc mantissa * 2 ^ (exponent + 1074).toNat
      < 2 ^ 53 * 2 ^ (exponent + 1074).toNat :=
        Nat.mul_lt_mul_of_pos_right short (Nat.two_pow_pos _)
    _ = 2 ^ 52 * 2 ^ ((exponent + 1074).toNat + 1) := by
        rw [← Nat.pow_add, ← Nat.pow_add]
        congr 1
        omega
    _ ≤ 2 ^ 52 * 2 ^ (exponent' + 1074).toNat :=
        Nat.mul_le_mul_left _ (Nat.pow_le_pow_right (by decide) (by omega))
    _ ≤ mantissa' * 2 ^ (exponent' + 1074).toNat := Nat.mul_le_mul_right _ full

/-- Between full mantissas the exponents decide first. -/
theorem compare_measure {mantissa mantissa' : Nat} {exponent exponent' : Int}
    (full : 2 ^ 52 ≤ mantissa) (short : mantissa < 2 ^ 53) (low : -1074 ≤ exponent)
    (full' : 2 ^ 52 ≤ mantissa') (short' : mantissa' < 2 ^ 53) (low' : -1074 ≤ exponent') :
    (compare exponent exponent').then (compare mantissa mantissa') =
      compare (mantissa * 2 ^ (exponent + 1074).toNat)
        (mantissa' * 2 ^ (exponent' + 1074).toNat) := by
  rcases Int.lt_trichotomy exponent exponent' with below | rfl | above
  · have less := measure_lt short full' low below
    rw [compare_lt_iff_lt.mpr below, compare_lt_iff_lt.mpr less]
    rfl
  · have positive := Nat.two_pow_pos (exponent + 1074).toNat
    rw [compare_eq_iff_eq.mpr rfl, Ordering.eq_then, Nat.compare_eq_ite_lt,
      Nat.compare_eq_ite_lt]
    simp only [Nat.mul_lt_mul_right positive]
  · have more := measure_lt short' full low' above
    rw [compare_gt_iff_gt.mpr above, compare_gt_iff_gt.mpr more]
    rfl

/-- Doubles are compared as their measures are. -/
theorem Measures.compare (measures : Measures first measure) (others : Measures second other) :
    first.compare second = some (compare measure other) := by
  cases measures with
  | zero sign =>
      cases others with
      | zero sign' => rfl
      | @finite sign' _ exponent positive =>
          have more := measure_pos exponent positive
          cases sign' with
          | negative =>
              exact congrArg some (compare_gt_iff_gt.mpr (Int.neg_neg_of_pos more)).symm
          | positive => exact congrArg some (compare_lt_iff_lt.mpr more).symm
  | @finite sign mantissa exponent positive full short low high =>
      have more := measure_pos exponent positive
      cases others with
      | zero sign' =>
          cases sign with
          | negative =>
              exact congrArg some (compare_lt_iff_lt.mpr (Int.neg_neg_of_pos more)).symm
          | positive => exact congrArg some (compare_gt_iff_gt.mpr more).symm
      | @finite sign' mantissa' exponent' positive' full' short' low' high' =>
          have more' := measure_pos exponent' positive'
          have order := compare_measure full short low full' short' low'
          cases sign <;> cases sign'
          · change some ((Ord.compare exponent exponent').then
              (Ord.compare mantissa mantissa')).swap = some (Ord.compare (-_) (-_))
            rw [order, Nat.compare_swap, Nat.compare_eq_ite_lt, Int.compare_eq_ite_lt]
            simp only [Int.neg_lt_neg_iff, Int.ofNat_lt]
          · have below := (Int.neg_neg_of_pos more).trans more'
            exact congrArg some (compare_lt_iff_lt.mpr below).symm
          · have above := (Int.neg_neg_of_pos more').trans more
            exact congrArg some (compare_gt_iff_gt.mpr above).symm
          · change some ((Ord.compare exponent exponent').then
              (Ord.compare mantissa mantissa')) = some (Ord.compare (Int.ofNat _) (Int.ofNat _))
            rw [order, Nat.compare_eq_ite_lt, Int.compare_eq_ite_lt]
            simp only [Int.ofNat_eq_natCast, Int.ofNat_lt]

theorem measures_rounded (sign : Sign) {mantissa : Nat} {exponent : Int}
    (full : 2 ^ 52 ≤ mantissa) (low : -1074 ≤ exponent) (high : exponent + mantissa.log2 ≤ 1022) :
    Measures (roundWithAccuracy .binary64 sign mantissa exponent .exact)
      (sign.apply (rounded mantissa * 2 ^ (exponent + 1074).toNat : Nat)) := by
  have long : 52 ≤ mantissa.log2 := (Nat.le_log2 (by omega)).mpr full
  have kept := digits_kept full
  have near := nearest_bounds mantissa (surplus mantissa)
  have above : -1074 ≤ exponent + surplus mantissa := by omega
  have below : exponent + surplus mantissa ≤ 970 := by unfold surplus; omega
  unfold roundWithAccuracy
  rw [shift_to_target full low]
  dsimp only
  rw [rounded_mantissa_shifted, rounded]
  generalize nearest mantissa (surplus mantissa) = whole at near ⊢
  have full : 2 ^ 52 ≤ whole := by omega
  have length := digits_kept full
  -- Rounding up may give one digit more, but then the last one is zero.
  obtain ⟨short, again⟩ :
      surplus whole ≤ 1 ∧ whole / 2 ^ surplus whole * 2 ^ surplus whole = whole := by
    rcases Nat.lt_or_ge whole (2 ^ 53) with room | more
    · rw [surplus_eq_zero room]
      omega
    · obtain rfl : whole = 2 ^ 53 := by omega
      decide
  rw [shift_to_target full above]
  dsimp only
  rw [shifted_mantissa, dif_neg (by omega)]
  have measures := Measures.finite sign (by omega) length.1 length.2
    (by omega : -1074 ≤ exponent + (surplus mantissa : Int) + (surplus whole : Int)) (by omega)
  have unit : (exponent + (surplus mantissa : Int) + (surplus whole : Int) + 1074).toNat =
      surplus whole + (surplus mantissa + (exponent + 1074).toNat) := by
    omega
  rwa [unit, Nat.pow_add, ← Nat.mul_assoc, again, Nat.pow_add, ← Nat.mul_assoc] at measures

end Measure

section Conversion

variable {number : Nat}

/-- An integer that a mantissa has room for is stored with zeros behind it. -/
theorem unpacked_integer (positive : 0 < number) (small : number < 2 ^ 53) :
    ∃ mantissa, 2 ^ 52 ≤ mantissa ∧ mantissa < 2 ^ 53 ∧
      mantissa = number * 2 ^ (52 - number.log2) ∧ ∃ filled,
        UnpackedFloat.ofNat .binary64 number =
          .finite .positive mantissa (number.log2 - 52) filled := by
  have bound := (Nat.log2_lt (by omega)).mpr small
  have length : (number * 2 ^ (52 - number.log2)).log2 = 52 := by
    rw [log2_scaled (by omega)]
    omega
  have full := (Nat.log2_eq_iff (by positivity)).mp length
  have order : compare (number : Int) 0 = .gt := compare_gt_iff_gt.mpr (by omega)
  have places : (0 - Format.binary64.targetExponent (totalExponent number 0)).toNat =
      52 - number.log2 := by
    change (0 - max ((number.log2 : Int) + 1 + 0 - 53) (-1074)).toNat = _
    omega
  have exponent : (0 : Int) - (52 - number.log2 : Nat) = number.log2 - 52 := by omega
  refine ⟨_, full.1, full.2, rfl, by positivity, ?_⟩
  rw [UnpackedFloat.ofNat, UnpackedFloat.ofInt, UnpackedFloat.normalize, order]
  simp only [UnpackedFloat.round, decreaseExponent, Int.toNat_natCast, places, exponent,
    Nat.shiftLeft_eq]
  exact round_full_length .positive full.1 full.2 (by omega)

theorem of_nat_small (small : number < 2 ^ 53) :
    Float.ofNat number = number.toUInt64.toFloat * Float.ofBits 0x3FF0000000000000 := by
  change Float.ofScientific number false 0 = _
  rw [Float.ofScientific, dif_pos ⟨small, by decide⟩]
  rfl

theorem of_nat_large (large : 2 ^ 53 ≤ number) :
    Float.ofNat number = ⟨Float.Model.ofScientific number 0⟩ := by
  change Float.ofScientific number false 0 = _
  rw [Float.ofScientific, dif_neg (by omega)]
  rfl

theorem unpacked_one : (Float.ofBits 0x3FF0000000000000).toModel.unpack =
    .finite .positive (2 ^ 52) (-52) (by decide) := by
  rfl

theorem unpack_mul (first second : Float) : (first * second).toModel.unpack =
    (Float.Model.pack
      (UnpackedFloat.mul .binary64 first.toModel.unpack second.toModel.unpack)).unpack :=
  rfl

theorem of_scientific_integer (positive : number ≠ 0) :
    UnpackedFloat.ofScientific .binary64 number 0 =
      roundWithAccuracy .binary64 .positive (number * 2 ^ 53) (-53) .exact := by
  have low : ¬ (0 : Int) < -((2 : Int) ^ 11 + number.log2) := by omega
  rw [UnpackedFloat.ofScientific, dif_neg positive, if_neg (by decide), if_neg low,
    if_pos (by decide)]
  simp only [UnpackedFloat.mul, Nat.shiftLeft_eq, Int.toNat_zero, Nat.pow_zero, Nat.mul_one]
  rfl

theorem measures_small (positive : 0 < number) (small : number < 2 ^ 53) :
    Measures (Float.ofNat number).toModel.unpack (number * perUnit : Nat) := by
  have word : number.toUInt64.toNat = number := by
    rw [Nat.toUInt64_eq, UInt64.toNat_ofNat', Nat.mod_eq_of_lt (by omega)]
  obtain ⟨mantissa, full, short, given, filled, unpacked⟩ := unpacked_integer positive small
  have log := (Nat.log2_lt (by omega)).mpr small
  have length := (Nat.log2_lt (by omega)).mpr short
  have factor : number.toUInt64.toFloat.toModel.unpack =
      .finite .positive mantissa (number.log2 - 52) filled := by
    change (Float.Model.pack (UnpackedFloat.ofNat .binary64 number.toUInt64.toNat)).unpack = _
    rw [word, unpacked]
    exact (Measures.finite .positive filled full short (by omega) (by omega)).unpack_pack
  have measures := measures_rounded .positive (by omega : 2 ^ 52 ≤ mantissa * 2 ^ 52)
    (by omega : -1074 ≤ (number.log2 : Int) - 52 + -52) (by rw [log2_scaled (by omega)]; omega)
  have same : rounded (mantissa * 2 ^ 52) * 2 ^ ((number.log2 : Int) - 52 + -52 + 1074).toNat =
      number * perUnit := by
    rw [rounded_scaled full, rounded_eq_self (by omega), given, Nat.mul_assoc number, ← Nat.pow_add]
    exact scaled_to_unit number (by unfold finest; omega)
  rw [of_nat_small small, unpack_mul, factor, unpacked_one, UnpackedFloat.mul]
  rw [same] at measures
  exact measures.packed

theorem measures_large (large : 2 ^ 53 ≤ number) (bound : number ≤ 2 ^ 64) :
    Measures (Float.ofNat number).toModel.unpack (rounded number * perUnit : Nat) := by
  have log := (Nat.log2_lt (by omega : number ≠ 0)).mpr (by omega : number < 2 ^ 65)
  have measures := measures_rounded .positive (by omega : 2 ^ 52 ≤ number * 2 ^ 53)
    (by decide : (-1074 : Int) ≤ -53) (by rw [log2_scaled (by omega)]; omega)
  have same : rounded (number * 2 ^ 53) * 2 ^ (-53 + 1074 : Int).toNat =
      rounded number * perUnit := by
    rw [rounded_scaled (by omega)]
    exact scaled_to_unit _ (by decide)
  rw [of_nat_large large]
  change Measures (Float.Model.pack (UnpackedFloat.ofScientific .binary64 number 0)).unpack _
  rw [of_scientific_integer (by omega), ← same]
  exact measures.packed

theorem measures_of_nat (bound : number ≤ 2 ^ 64) :
    Measures (Float.ofNat number).toModel.unpack (rounded number * perUnit : Nat) := by
  rcases Nat.lt_or_ge number (2 ^ 53) with small | large
  · rw [rounded_eq_self (by omega)]
    rcases Nat.eq_zero_or_pos number with rfl | positive
    · rw [Nat.zero_mul]
      exact Measures.zero .positive
    · exact measures_small positive small
  · exact measures_large large bound

theorem measures_of_int {value : Int} (bound : value.natAbs ≤ 2 ^ 64) :
    Measures (Float.ofInt value).toModel.unpack (roundedInt value * perUnit) := by
  cases value with
  | ofNat number =>
      rw [Int.ofNat_eq_natCast, rounded_int_natCast]
      exact_mod_cast measures_of_nat bound
  | negSucc number =>
      have measures : Measures (Float.ofNat (number + 1)).toModel.unpack.neg _ :=
        (measures_of_nat bound).neg
      rw [Int.negSucc_eq, rounded_int_neg, ← Int.natCast_succ, rounded_int_natCast, Int.neg_mul]
      exact_mod_cast measures.packed

/-- Integers that were converted are compared as the rounded integers are. -/
theorem compare_of_integers (first second : Int64) :
    (ofInteger first).toModel.unpack.compare (ofInteger second).toModel.unpack =
      some (compare (roundedInt first.toInt) (roundedInt second.toInt)) := by
  have bound : ∀ word : Int64, word.toInt.natAbs ≤ 2 ^ 64 := by
    intro word
    have low := Int64.le_toInt word
    have high := Int64.toInt_lt word
    omega
  have positive : (0 : Int) < perUnit := by exact_mod_cast per_unit_pos
  rw [ofInteger, ofInteger,
    (measures_of_int (bound first)).compare (measures_of_int (bound second)),
    Int.compare_eq_ite_lt, Int.compare_eq_ite_lt]
  simp only [Int.mul_lt_mul_right positive]

theorem of_integer_lt_iff (first second : Int64) :
    ofInteger first < ofInteger second ↔ roundedInt first.toInt < roundedInt second.toInt := by
  change decide (((ofInteger first).toModel.unpack.compare (ofInteger second).toModel.unpack ==
    some .lt) = true) = true ↔ _
  rw [compare_of_integers]
  simp [compare_lt_iff_lt]

theorem of_integer_beq_iff (first second : Int64) :
    (ofInteger first == ofInteger second) = true ↔
      roundedInt first.toInt = roundedInt second.toInt := by
  change ((ofInteger first).toModel.unpack.compare (ofInteger second).toModel.unpack ==
    some .eq) = true ↔ _
  rw [compare_of_integers]
  simp

/-- No integer but zero is so small that its double is zero. -/
theorem of_integer_beq_zero_iff (word : Int64) : (ofInteger word == 0.0) = true ↔ word = 0 := by
  have zero : (0.0 : Float) = ofInteger 0 := rfl
  rw [zero, of_integer_beq_iff, ← Int64.toInt_inj]
  exact rounded_int_eq_zero_iff

/-- The first two integers that have one double between them. -/
example : roundedInt (2 ^ 53) = roundedInt (2 ^ 53 + 1) := by decide

end Conversion

end TreeScript.Double
