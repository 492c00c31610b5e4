import TreeScript.Number.Double
/-!
# Shortest decimals

The decimal with the fewest digits among those that round to a given double. For each count of
digits it is enough to look at the two decimals around the double.
-/

namespace TreeScript.Double

set_option autoImplicit false

/-- The numbers that round to a positive double, with the double itself: all four are multiples
of `unit / whole`. The ends belong to the interval when `closed` holds. -/
structure Interval where
  low : Nat
  value : Nat
  high : Nat
  unit : Nat
  whole : Nat
  closed : Bool

/-- Below the least mantissa of an exponent the doubles are twice as dense. -/
def interval (mantissa : Nat) (exponent : Int) : Interval where
  low := 4 * mantissa - if mantissa = leadingBit ∧ -1074 < exponent then 1 else 2
  value := 4 * mantissa
  high := 4 * mantissa + 2
  unit := 1 <<< (exponent - 2).toNat
  whole := 1 <<< (2 - exponent).toNat
  closed := mantissa % 2 == 0

def countDigits (n : Nat) : Nat := (Nat.toDigits 10 n).length

/-- The least power of ten above a positive quotient. -/
def powerAbove (numerator denominator : Nat) : Int :=
  if denominator ≤ numerator then countDigits (numerator / denominator)
  else
    let places := countDigits (denominator / numerator)
    if denominator ≤ numerator * Nat.pow 10 (places - 1) then 2 - places else 1 - places

namespace Interval

def power (range : Interval) : Int := powerAbove (range.value * range.unit) range.whole

def holds (range : Interval) (scale step candidate : Nat) : Bool :=
  let point := candidate * range.whole * step
  let low := range.low * range.unit * scale
  let high := range.high * range.unit * scale
  if range.closed then low ≤ point && point ≤ high else low < point && point < high

/-- The better of the two decimals of `count` digits around the value, if one of them lies in the
interval. A tie goes to the larger. -/
def best? (range : Interval) (count : Nat) : Option Nat :=
  let scale := Nat.pow 10 (count - range.power).toNat
  let step := Nat.pow 10 (range.power - count).toNat
  let value := range.value * range.unit * scale
  let grid := range.whole * step
  let below := value / grid
  match range.holds scale step below, range.holds scale step (below + 1) with
  | true, true => some (if 2 * (value % grid) < grid then below else below + 1)
  | true, false => some below
  | false, true => some (below + 1)
  | false, false => none

end Interval

/-- Every double is told apart by 17 digits. -/
def maxDigits : Nat := 17

def shortest (mantissa : Nat) (exponent : Int) : Nat × Int :=
  let range := interval mantissa exponent
  let found := (List.range maxDigits).findSome? fun index =>
    (range.best? (index + 1)).map fun digits => (digits, range.power - (index + 1))
  found.getD (0, 0)

end TreeScript.Double
