import TreeScript.Number.Shortest
/-!
# The text of a double

Writing uses the shortest decimal that reads back. It always shows a fraction or an exponent, so
a double is never taken for an integer. Reading accepts a wider grammar: a sign, digits with an
optional point on either side, an exponent, and the names of the infinities and of the number
that is none.
-/

namespace TreeScript.Double

set_option autoImplicit false

/-- The point stands in the digits while the first one is at most this far to its left. -/
def maxPositional : Int := 16

/-- The point stands before the digits while at most three zeros come between. -/
def minPositional : Int := -3

def dropTrailingZeros (digits : List Char) : List Char :=
  (digits.reverse.dropWhile (· == '0')).reverse

/-- The decimal `0.digits * 10 ^ point`. -/
def layout (digits : List Char) (point : Int) : List Char :=
  if minPositional ≤ point ∧ point ≤ maxPositional then
    if point ≤ 0 then '0' :: '.' :: List.replicate (-point).toNat '0' ++ digits
    else
      let whole := digits.take point.toNat
      let zeros := List.replicate (point.toNat - digits.length) '0'
      let fraction := digits.drop point.toNat
      whole ++ zeros ++ '.' :: if fraction.isEmpty then ['0'] else fraction
  else
    let fraction := digits.drop 1
    let mark := if fraction.isEmpty then [] else '.' :: fraction
    digits.take 1 ++ mark ++ 'e' :: (point - 1).repr.toList

def magnitudeText (mantissa : Nat) (exponent : Int) : List Char :=
  if mantissa = 0 then ['0', '.', '0']
  else
    let (digits, power) := shortest mantissa exponent
    let written := Nat.toDigits 10 digits
    layout (dropTrailingZeros written) (power + written.length)

def signed (negative : Bool) (text : List Char) : List Char :=
  if negative then '-' :: text else text

def text (x : Float) : String :=
  match shape x with
  | .nan => "NaN"
  | .infinite negative => String.ofList (signed negative "inf".toList)
  | .finite negative mantissa exponent =>
      String.ofList (signed negative (magnitudeText mantissa exponent))

/-- The double nearest to `mantissa * 10 ^ exponent`. Far outside the range of the doubles the
powers of ten are not computed. -/
def ofDecimal (negative : Bool) (mantissa : Nat) (exponent : Int) : Float :=
  let point := exponent + (Nat.toDigits 10 mantissa).length
  let magnitude :=
    if mantissa = 0 ∨ point < -400 then 0.0
    else if 400 < point then infinity false
    else Float.ofScientific mantissa (decide (exponent < 0)) exponent.natAbs
  if negative then -magnitude else magnitude

/-- An exponent mark, an optional sign and digits, or nothing at all. -/
def readExponent? : List Char → Option Int
  | [] => some 0
  | mark :: rest =>
      if mark = 'e' ∨ mark = 'E' then
        let (negative, digits) := match rest with
          | '-' :: digits => (true, digits)
          | '+' :: digits => (false, digits)
          | digits => (false, digits)
        if digits ≠ [] ∧ digits.all Char.isDigit then
          let value : Int := Nat.ofDigitChars 10 digits 0
          some (if negative then -value else value)
        else none
      else none

/-- Digits with an optional point among them or at either end, then an optional exponent. -/
def readDecimal? (negative : Bool) (text : List Char) : Option Float :=
  let whole := text.takeWhile Char.isDigit
  let rest := text.dropWhile Char.isDigit
  let (fraction, tail) := match rest with
    | '.' :: more => (more.takeWhile Char.isDigit, more.dropWhile Char.isDigit)
    | more => ([], more)
  if whole ++ fraction = [] then none
  else (readExponent? tail).map fun exponent =>
    ofDecimal negative (Nat.ofDigitChars 10 (whole ++ fraction) 0) (exponent - fraction.length)

def readMagnitude? (negative : Bool) (text : List Char) : Option Float :=
  let name := text.map Char.toLower
  if name = "inf".toList ∨ name = "infinity".toList then some (infinity negative)
  else if name = "nan".toList then some nan
  else readDecimal? negative text

def read? : List Char → Option Float
  | '-' :: rest => readMagnitude? true rest
  | '+' :: rest => readMagnitude? false rest
  | rest => readMagnitude? false rest

end TreeScript.Double
