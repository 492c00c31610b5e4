import TreeScript.Registry
/-!
# Numeric functions

Arithmetic and order on numbers of two kinds. A text that reads as a number counts as one. A
calculation stays among the integers as long as it can and never wraps; once a double takes part
the result is a double.
-/

namespace TreeScript

set_option autoImplicit false

inductive Number where
  | integer (value : Int64)
  | double (value : Float)

namespace Number

/-- A text is read as an integer if it can be, and else as a double. -/
def ofValue : Value → Except Fault Number
  | .int value => .ok (integer value)
  | .double value => .ok (double value)
  | .string text =>
      let characters := Text.trimmed text.toList
      match Integer.read? characters with
      | some value => .ok (integer value)
      | none =>
          match Double.read? characters with
          | some value => .ok (double value)
          | none => .error (.notANumber text)
  | value => .error (.notNumeric value.typeName)

def toDouble : Number → Float
  | integer value => Double.ofInteger value
  | double value => value

def toValue : Number → Value
  | integer value => .int value
  | double value => .double value

/-- Integers are combined exactly, and all else as doubles. -/
def combine (operation : String) (onIntegers : Int64 → Int64 → Option Int64)
    (onDoubles : Float → Float → Float) : Number → Number → Except Fault Number
  | integer first, integer second =>
      match onIntegers first second with
      | some result => .ok (integer result)
      | none => .error (.overflow operation)
  | first, second => .ok (double (onDoubles first.toDouble second.toDouble))

/-- A quotient of integers is an integer only when nothing is left over. -/
def divide (first second : Number) : Except Fault Number :=
  if second.toDouble == 0.0 then .error .divisionByZero
  else
    match first, second with
    | integer a, integer b =>
        match Integer.remainder? a b, Integer.quotient? a b with
        | some rest, some quotient =>
            if rest = 0 then .ok (integer quotient)
            else .ok (double (Double.ofInteger a / Double.ofInteger b))
        | _, _ => .error (.overflow "divide")
    | _, _ => .ok (double (first.toDouble / second.toDouble))

def modulo (first second : Number) : Except Fault Number :=
  match first, second with
  | integer a, integer b =>
      if b = 0 then .error .divisionByZero
      else
        match Integer.remainder? a b with
        | some rest => .ok (integer rest)
        | none => .error (.overflow "modulo")
  | _, _ =>
      if second.toDouble == 0.0 then .error .divisionByZero
      else .ok (double (Double.remainder first.toDouble second.toDouble))

/-- Combines from left to right. An argument is read only when its turn comes. -/
def accumulate (step : Number → Number → Except Fault Number) :
    Number → List Value → Except Fault Number
  | total, [] => .ok total
  | total, value :: rest => do
      let next ← ofValue value
      let total ← step total next
      accumulate step total rest

end Number

namespace Prelude

def fold (operation needed : String) (step : Number → Number → Except Fault Number) :
    List Value → Except Fault Value
  | [] => .error (.tooFewArguments operation needed)
  | first :: rest => do
      let start ← Number.ofValue first
      let total ← Number.accumulate step start rest
      return total.toValue

def add : List Value → Except Fault Value :=
  fold "add" "one argument" (Number.combine "add" Integer.add? (· + ·))

def subtract : List Value → Except Fault Value :=
  fold "subtract" "one argument" (Number.combine "subtract" Integer.subtract? (· - ·))

def multiply : List Value → Except Fault Value :=
  fold "multiply" "one argument" (Number.combine "multiply" Integer.multiply? (· * ·))

def divide : List Value → Except Fault Value := fold "divide" "two arguments" Number.divide

/-- The first two arguments. A function calls this under an arity that grants both. -/
def twoArguments : List Value → Except Fault (Value × Value)
  | first :: second :: _ => .ok (first, second)
  | [_] => .error (.absentArgument 1)
  | [] => .error (.absentArgument 0)

def oneArgument : List Value → Except Fault Value
  | first :: _ => .ok first
  | [] => .error (.absentArgument 0)

def modulo (arguments : List Value) : Except Fault Value := do
  let (first, second) ← twoArguments arguments
  let a ← Number.ofValue first
  let b ← Number.ofValue second
  let rest ← Number.modulo a b
  return rest.toValue

def compare (order : Float → Float → Bool) (arguments : List Value) : Except Fault Value := do
  let (first, second) ← twoArguments arguments
  let a ← Number.ofValue first
  let b ← Number.ofValue second
  return .bool (order a.toDouble b.toDouble)

def lessThan : List Value → Except Fault Value := compare fun a b => decide (a < b)

def greaterThan : List Value → Except Fault Value := compare fun a b => decide (b < a)

/-- Two numbers are equal as doubles, and other values by their texts. Booleans, null and void
keep to their own kind first; arrays, closures and resources always do. -/
def looselyEqual (first second : Value) : Bool :=
  match first, second with
  | .bool a, .bool b => a == b
  | .null, .null => true
  | .void, .void => true
  | .array _, _ | _, .array _ => first == second
  | .closure _, _ | _, .closure _ => first == second
  | .resource _, _ | _, .resource _ => first == second
  | _, _ =>
      match Number.ofValue first, Number.ofValue second with
      | .ok a, .ok b => a.toDouble == b.toDouble
      | _, _ => first.text == second.text

def equals (arguments : List Value) : Except Fault Value := do
  let (first, second) ← twoArguments arguments
  return .bool (looselyEqual first second)

end Prelude

end TreeScript
