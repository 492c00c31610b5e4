/-!
# Integers

Signed 64-bit integers: arithmetic that reports a result out of range instead of wrapping, and
decimal text.
-/

namespace TreeScript.Integer

set_option autoImplicit false

def ofInt? (value : Int) : Option Int64 :=
  if Int64.minValue.toInt ≤ value ∧ value ≤ Int64.maxValue.toInt then some (Int64.ofInt value)
  else none

def add? (a b : Int64) : Option Int64 := ofInt? (a.toInt + b.toInt)

def subtract? (a b : Int64) : Option Int64 := ofInt? (a.toInt - b.toInt)

def multiply? (a b : Int64) : Option Int64 := ofInt? (a.toInt * b.toInt)

/-- The quotient rounded toward zero; the only one out of range has the divisor -1. -/
def quotient? (a b : Int64) : Option Int64 :=
  if b = 0 then none else ofInt? (a.toInt.tdiv b.toInt)

/-- The remainder of `quotient?`, given exactly when the quotient is. -/
def remainder? (a b : Int64) : Option Int64 :=
  if b = 0 then none
  else if a = Int64.minValue ∧ b = -1 then none
  else ofInt? (a.toInt.tmod b.toInt)

def text (value : Int64) : String := value.toInt.repr

def readDigits? (digits : List Char) : Option Nat :=
  if digits ≠ [] ∧ digits.all Char.isDigit then some (Nat.ofDigitChars 10 digits 0) else none

/-- An optional sign, then decimal digits, denoting a number in range. -/
def read? : List Char → Option Int64
  | '-' :: digits => (readDigits? digits).bind fun value => ofInt? (-value)
  | '+' :: digits => (readDigits? digits).bind fun value => ofInt? value
  | digits => (readDigits? digits).bind fun value => ofInt? value

theorem ofInt?_eq_some {value : Int} {word : Int64} (found : ofInt? value = some word) :
    word.toInt = value := by
  unfold ofInt? at found
  split at found
  · rename_i fits
    rw [← Option.some.inj found]
    have low : -2 ^ 63 ≤ value := by simpa using fits.1
    have high : value < 2 ^ 63 := by
      have most : Int64.maxValue.toInt = 2 ^ 63 - 1 := by decide
      omega
    exact Int64.toInt_ofInt_of_le low high
  · simp at found

theorem ofInt?_toInt (word : Int64) : ofInt? word.toInt = some word := by
  have low : Int64.minValue.toInt ≤ word.toInt := by simpa using Int64.le_toInt word
  have high : word.toInt ≤ Int64.maxValue.toInt := by
    have below := Int64.toInt_lt word
    have most : Int64.maxValue.toInt = 2 ^ 63 - 1 := by decide
    omega
  simp only [ofInt?]
  rw [if_pos ⟨low, high⟩, Int64.ofInt_toInt]

end TreeScript.Integer
