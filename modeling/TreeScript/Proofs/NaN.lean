import TreeScript.Proofs.Rounding
import TreeScript.Program
/-!
# What is not a number

A double that is not a number is the only one that differs from itself. No decimal is read as it,
however large or small: the power of ten that scales a mantissa is neither zero nor infinite. So it
is read from its name alone, with a sign or without, in letters of either case.
-/

namespace TreeScript.Double

set_option autoImplicit false

open Float.Model Float.Model.UnpackedFloat

section Numbers

variable {x y : Float} {unpacked divisor : UnpackedFloat}

def IsNumber (x : Float) : Prop := x.toModel.unpack ≠ .notANumber

theorem beq_self_iff_number (x : Float) : (x == x) = true ↔ IsNumber x := by
  change (x.toModel.unpack.beq x.toModel.unpack) = true ↔ _
  rw [beq_iff_ne_notANumber_and_eq]
  exact ⟨fun parts => parts.1, fun number => ⟨number, number, Or.inl rfl⟩⟩

theorem number_iff (x : Float) : IsNumber x ↔ x.isNaN = false := by
  rw [IsNumber, Ne, ← isNaN_iff, Bool.not_eq_true]
  rfl

/-- Packed parts are no number only if the exponent is the greatest one and a mantissa is left. -/
theorem number_components {spec : Format} (sign : Sign) {exponent : BitVec spec.exponentBits}
    {mantissa : BitVec spec.mantissaBitsWithoutImplicit}
    (number : exponent = -BitVec.ofNat spec.exponentBits 1 →
      mantissa = BitVec.ofNat spec.mantissaBitsWithoutImplicit 0) :
    UnpackedFloat.unpack spec (packComponents spec sign exponent mantissa) ≠ .notANumber := by
  unfold UnpackedFloat.unpack
  simp only [unpackExponent_packComponents, unpackMantissa_packComponents]
  split
  case isTrue greatest =>
    rw [if_pos (number greatest)]
    exact nofun
  case isFalse =>
    split
    · split <;> exact nofun
    · exact nofun

/-- The exponent of a number is never packed as the greatest one, unless the number is infinite. -/
theorem number_packed (number : unpacked ≠ .notANumber) :
    (Float.Model.pack unpacked).unpack ≠ .notANumber := by
  change UnpackedFloat.unpack .binary64 (UnpackedFloat.pack .binary64 unpacked) ≠ _
  cases unpacked with
  | notANumber => exact absurd rfl number
  | zero sign => exact number_components sign fun _ => rfl
  | infinity sign => exact number_components sign fun _ => rfl
  | finite sign mantissa exponent positive =>
      unfold UnpackedFloat.pack
      dsimp only
      split
      · exact number_components sign fun _ => rfl
      case isFalse low =>
        split
        · refine number_components sign fun greatest => absurd (congrArg BitVec.toNat greatest) ?_
          rw [BitVec.toNat_ofNat]
          change ¬ (exponent + (1023 : Nat) + (52 : Nat)).toNat % 2 ^ 11 = 2 ^ 11 - 1
          change ¬ 2 ^ 11 ≤ (exponent + (1023 : Nat) + (52 : Nat)).toNat + 1 at low
          omega
        · exact number_components sign fun greatest => absurd greatest (by decide)

theorem number_round (sign : Sign) (mantissa : Nat) (exponent : Int) (accuracy : Accuracy) :
    roundWithAccuracy .binary64 sign mantissa exponent accuracy ≠ .notANumber := by
  unfold roundWithAccuracy
  dsimp only
  split <;> simp

def isOrdinary : UnpackedFloat → Bool
  | .finite _ _ _ _ => true
  | _ => false

/-- Only zero and the infinities make a product or a quotient of numbers that is none. -/
theorem number_mul_div (number : unpacked ≠ .notANumber) (ordinary : isOrdinary divisor = true) :
    UnpackedFloat.mul .binary64 unpacked divisor ≠ .notANumber ∧
      UnpackedFloat.div .binary64 unpacked divisor ≠ .notANumber := by
  cases divisor with
  | notANumber => cases ordinary
  | zero sign => cases ordinary
  | infinity sign => cases ordinary
  | finite sign mantissa exponent positive =>
      cases unpacked with
      | notANumber => exact absurd rfl number
      | zero sign => exact ⟨nofun, nofun⟩
      | infinity sign => exact ⟨nofun, nofun⟩
      | finite sign mantissa exponent positive =>
          exact ⟨number_round _ _ _ _, number_round _ _ _ _⟩

theorem number_neg (number : IsNumber x) : IsNumber (-x) := by
  refine number_packed ?_
  unfold IsNumber at number
  cases same : x.toModel.unpack with
  | notANumber => exact absurd same number
  | zero sign => exact nofun
  | infinity sign => exact nofun
  | finite sign mantissa exponent positive => exact nofun

theorem powers_ordinary (place : Fin 23) :
    isOrdinary (Float.exactlyRepresentablePowersOfTen[place.val]).toModel.unpack = true := by
  revert place
  decide +kernel

theorem number_of_word (word : UInt64) : IsNumber word.toFloat := by
  refine number_packed ?_
  change UnpackedFloat.normalize .binary64 word.toNat 0 .positive ≠ _
  unfold UnpackedFloat.normalize
  split
  · exact number_round _ _ _ _
  · exact nofun
  · exact number_round _ _ _ _

theorem number_scientific (mantissa : Nat) (power : Int) :
    UnpackedFloat.ofScientific .binary64 mantissa power ≠ .notANumber := by
  unfold UnpackedFloat.ofScientific
  split
  · exact nofun
  · split
    · exact nofun
    · split
      · exact nofun
      · split
        · exact number_round _ _ _ _
        · exact number_round _ _ _ _

theorem number_of_scientific (mantissa : Nat) (isNegative : Bool) (exponent : Nat) :
    IsNumber (Float.ofScientific mantissa isNegative exponent) := by
  rw [Float.ofScientific]
  split
  case isTrue small =>
    have parts := number_mul_div (number_of_word mantissa.toUInt64)
      (powers_ordinary ⟨exponent, by omega⟩)
    cases isNegative with
    | true => exact number_packed parts.2
    | false => exact number_packed parts.1
  case isFalse large =>
    exact number_packed (number_scientific mantissa _)

theorem number_of_decimal (negative : Bool) (mantissa : Nat) (exponent : Int) :
    IsNumber (ofDecimal negative mantissa exponent) := by
  have magnitude : IsNumber (ofDecimal false mantissa exponent) := by
    unfold ofDecimal
    dsimp only
    rw [if_neg Bool.false_ne_true]
    split
    · exact (beq_self_iff_number _).mp (by decide +kernel)
    · split
      · exact (beq_self_iff_number _).mp (by decide +kernel)
      · exact number_of_scientific _ _ _
  cases negative with
  | false => exact magnitude
  | true => exact number_neg magnitude

end Numbers

section Reading

variable {text : List Char} {x : Float}

theorem number_of_infinity (negative : Bool) : IsNumber (infinity negative) := by
  cases negative <;> exact (beq_self_iff_number _).mp (by decide +kernel)

theorem nan_not_number : ¬ IsNumber nan := mt (beq_self_iff_number _).mpr (by decide +kernel)

def unsigned : List Char → List Char
  | '-' :: rest => rest
  | '+' :: rest => rest
  | rest => rest

def namesNaN (text : List Char) : Bool := (unsigned text).map Char.toLower == ['n', 'a', 'n']

theorem unsigned_self (minus : ∀ rest, text = '-' :: rest → False)
    (plus : ∀ rest, text = '+' :: rest → False) : unsigned text = text := by
  unfold unsigned
  split
  · exact (minus _ rfl).elim
  · exact (plus _ rfl).elim
  · rfl

theorem read_unsigned (text : List Char) :
    ∃ negative, read? text = readMagnitude? negative (unsigned text) := by
  unfold read?
  split
  case h_1 rest => exact ⟨true, rfl⟩
  case h_2 rest => exact ⟨false, rfl⟩
  case h_3 minus plus => exact ⟨false, by rw [unsigned_self minus plus]⟩

theorem integer_read_unsigned (failed : Integer.readDigits? (unsigned text) = none) :
    Integer.read? text = none := by
  unfold Integer.read?
  split
  case h_1 rest => exact failed ▸ rfl
  case h_2 rest => exact failed ▸ rfl
  case h_3 minus plus =>
    rw [unsigned_self minus plus] at failed
    rw [failed]
    rfl

theorem read_decimal_number {negative : Bool} (read : readDecimal? negative text = some x) :
    IsNumber x := by
  simp only [readDecimal?] at read
  split at read <;> split at read
  · cases read
  · obtain ⟨exponent, -, rfl⟩ := Option.map_eq_some_iff.mp read
    exact number_of_decimal _ _ _
  · cases read
  · obtain ⟨exponent, -, rfl⟩ := Option.map_eq_some_iff.mp read
    exact number_of_decimal _ _ _

theorem read_magnitude_number {negative : Bool} (read : readMagnitude? negative text = some x) :
    IsNumber x ↔ text.map Char.toLower ≠ ['n', 'a', 'n'] := by
  unfold readMagnitude? at read
  dsimp only at read
  split at read
  case isTrue infinite =>
    cases read
    refine ⟨fun _ nan => ?_, fun _ => number_of_infinity negative⟩
    rw [nan] at infinite
    revert infinite
    decide
  case isFalse =>
    split at read
    case isTrue named =>
      cases read
      exact ⟨fun number => absurd number nan_not_number, fun other => absurd named other⟩
    case isFalse other =>
      exact ⟨fun _ => other, fun _ => read_decimal_number read⟩

/-- What is read is a number unless the text is the name of none. -/
theorem read_number (read : read? text = some x) : IsNumber x ↔ namesNaN text = false := by
  obtain ⟨negative, same⟩ := read_unsigned text
  rw [read_magnitude_number (same ▸ read), namesNaN, beq_eq_false_iff_ne]

theorem not_digit_of_letter {c : Char} (letter : c.toLower = 'n') : c.isDigit = false := by
  by_contra digit
  rw [Bool.not_eq_false] at digit
  have small : ¬ (c.val ≥ 'A'.val ∧ c.val ≤ 'Z'.val) := by
    simp only [Char.isDigit, Bool.and_eq_true, decide_eq_true_eq] at digit
    exact fun upper => absurd (UInt32.le_trans upper.1 digit.2) (by decide)
  rw [Char.toLower, dif_neg small] at letter
  subst letter
  exact absurd digit (by decide)

/-- The name is read as what is not a number, and never as an integer. -/
theorem read_names_nan (names : namesNaN text = true) :
    read? text = some nan ∧ Integer.read? text = none := by
  have name : (unsigned text).map Char.toLower = ['n', 'a', 'n'] := eq_of_beq names
  constructor
  · obtain ⟨negative, same⟩ := read_unsigned text
    rw [same]
    unfold readMagnitude?
    dsimp only
    rw [name]
    rfl
  · refine integer_read_unsigned ?_
    cases given : unsigned text with
    | nil => rfl
    | cons c rest =>
        rw [given, List.map_cons] at name
        have letter := not_digit_of_letter (List.cons.inj name).1
        rw [Integer.readDigits?, if_neg]
        simp [letter]

end Reading

end TreeScript.Double

namespace TreeScript.Number

theorem number_of_integer (word : Int64) : Double.IsNumber (Double.ofInteger word) :=
  (Double.beq_self_iff_number _).mp ((Double.of_integer_beq_iff word word).mpr rfl)

/-- A text counts as a number that differs from itself exactly if it is the name of none. -/
theorem of_value_string_number (text : String) :
    (∀ number, ofValue (.string text) = .ok number → Double.IsNumber number.toDouble) ↔
      Double.namesNaN (Text.trimmed text.toList) = false := by
  constructor
  · intro numbers
    by_contra names
    obtain ⟨read, failed⟩ := Double.read_names_nan (Bool.not_eq_false _ ▸ names)
    refine Double.nan_not_number (numbers (.double Double.nan) ?_)
    simp only [ofValue, failed, read]
  · intro other number found
    simp only [ofValue] at found
    split at found
    · cases found
      exact number_of_integer _
    · split at found
      case h_1 x read =>
        cases found
        exact (Double.read_number read).mpr other
      · cases found

end TreeScript.Number
