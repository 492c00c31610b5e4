/-!
# Doubles as exact numbers

A finite double is a mantissa times a power of two. The remainder of a division is computed on
that form, so it is exact.
-/

namespace TreeScript.Double

set_option autoImplicit false

/-- What the bits of a double say. A finite double is `mantissa * 2 ^ exponent` up to its sign. -/
inductive Shape where
  | nan
  | infinite (negative : Bool)
  | finite (negative : Bool) (mantissa : Nat) (exponent : Int)
deriving DecidableEq

/-- The first bit of a mantissa of full length, which the bits of the double leave out. -/
def leadingBit : Nat := 1 <<< 52

def shape (x : Float) : Shape :=
  let bits := x.toBits.toNat
  let negative := decide (bits >>> 63 = 1)
  let exponent := bits >>> 52 % 2048
  let fraction := bits % leadingBit
  if exponent = 2047 then
    if fraction = 0 then .infinite negative else .nan
  else if exponent = 0 then .finite negative fraction (-1074)
  else .finite negative (leadingBit + fraction) (exponent - 1075)

def nan : Float := 0.0 / 0.0

def infinity (negative : Bool) : Float := if negative then -1.0 / 0.0 else 1.0 / 0.0

/-- The double `mantissa * 2 ^ exponent`, for a number that has one. -/
def ofParts (negative : Bool) (mantissa : Nat) (exponent : Int) : Float :=
  let sign := if negative then 1 <<< 63 else 0
  let width := mantissa.log2
  let magnitude :=
    if mantissa = 0 then 0
    else if exponent + width < -1022 then
      if exponent < -1074 then mantissa >>> (-1074 - exponent).toNat
      else mantissa <<< (exponent + 1074).toNat
    else
      let significand := if width ≤ 52 then mantissa <<< (52 - width) else mantissa >>> (width - 52)
      (exponent + width + 1023).toNat * leadingBit + (significand - leadingBit)
  Float.ofBits (UInt64.ofNat (sign + magnitude))

/-- The remainder of the quotient rounded toward zero. It has the sign of the dividend. -/
def remainder (a b : Float) : Float :=
  match shape a, shape b with
  | .finite negative m p, .finite _ n q =>
      if n = 0 then nan
      else
        let low := min p q
        ofParts negative (m <<< (p - low).toNat % n <<< (q - low).toNat) low
  | .finite _ _ _, .infinite _ => a
  | _, _ => nan

def ofInteger (value : Int64) : Float := Float.ofInt value.toInt

end TreeScript.Double
