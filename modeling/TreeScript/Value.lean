import TreeScript.Text.Blank
import TreeScript.Tree.Text
/-!
# Operations on values

Type names, truth, reading numbers out of values, and equality. Equality is structural except on
closures and resources, which are equal only to themselves.
-/

namespace TreeScript

set_option autoImplicit false

namespace Value

def typeName : Value → String
  | void => "void"
  | null => "null"
  | bool _ => "boolean"
  | int _ => "int"
  | double _ => "double"
  | string _ => "string"
  | array _ => "array"
  | closure _ => "closure"
  | resource _ => "resource"

def isVoid : Value → Bool
  | void => true
  | _ => false

def isNull : Value → Bool
  | null => true
  | _ => false

def isNumeric : Value → Bool
  | int _ | double _ => true
  | _ => false

def isString : Value → Bool
  | string _ => true
  | _ => false

def isCallable : Value → Bool
  | closure _ => true
  | _ => false

/-- Nothing, zero and empty texts and arrays are false. -/
def isTruthy : Value → Bool
  | void | null => false
  | bool flag => flag
  | int number => number != 0
  | double number => number != 0.0
  | string text => text != ""
  | array items => !items.isEmpty
  | closure _ | resource _ => true

def bool? : Value → Option Bool
  | bool flag => some flag
  | _ => none

/-- An integer, or a text that holds one between blanks. -/
def integer? : Value → Option Int64
  | int number => some number
  | string text => Integer.read? (Text.trimmed text.toList)
  | _ => none

/-- A number of either kind, or a text that holds one between blanks. -/
def double? : Value → Option Float
  | int number => some (Double.ofInteger number)
  | double number => some number
  | string text => Double.read? (Text.trimmed text.toList)
  | _ => none

def string? : Value → Option String
  | string text => some text
  | _ => none

def array? : Value → Option (List Value)
  | array items => some items
  | _ => none

def closure? : Value → Option Closure
  | closure callee => some callee
  | _ => none

def ofOption (value : Option Value) : Value := value.getD null

mutual

def same : Value → Value → Bool
  | void, void => true
  | null, null => true
  | bool first, bool second => first == second
  | int first, int second => first == second
  | double first, double second => first == second
  | string first, string second => first == second
  | array first, array second => sameItems first second
  | closure first, closure second => first.identity == second.identity
  | resource first, resource second => first.identity == second.identity
  | _, _ => false

def sameItems : List Value → List Value → Bool
  | [], [] => true
  | first :: rest, other :: others => same first other && sameItems rest others
  | _, _ => false

end

instance : BEq Value := ⟨same⟩

end Value

namespace Payload

def same : Payload → Payload → Bool
  | literal first, literal second => first == second
  | .variable first, .variable second => first == second
  | call first, call second => first == second
  | _, _ => false

instance : BEq Payload := ⟨same⟩

end Payload

namespace Tree

mutual

/-- Equal payloads, places, flags and children; what a node remembers does not count. -/
def same : Tree → Tree → Bool
  | ⟨payload, position, optimized, _, children⟩, ⟨payload', position', optimized', _, children'⟩ =>
      payload == payload' && position.same position' && optimized == optimized' &&
        sameChildren children children'

def sameChildren : List Tree → List Tree → Bool
  | [], [] => true
  | first :: rest, other :: others => same first other && sameChildren rest others
  | _, _ => false

end

instance : BEq Tree := ⟨same⟩

end Tree

end TreeScript
