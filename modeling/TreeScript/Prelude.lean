import TreeScript.Prelude.Reflection
/-!
# The prelude

The functions that every script can call unless its host says otherwise. Making an array is not
pure, so that each call makes an array of its own; `dyn` hides a value from the optimizer.
-/

namespace TreeScript

set_option autoImplicit false

namespace Prelude

def concat (arguments : List Value) : Except Fault Value :=
  .ok (.string (String.join (arguments.map Value.text)))

def negate (arguments : List Value) : Except Fault Value := do
  let value ← oneArgument arguments
  return .bool (!value.isTruthy)

def makeArray (arguments : List Value) : Except Fault Value := .ok (.array arguments)

def requireArray (value : Value) : Except Fault (List Value) :=
  match value.array? with
  | some items => .ok items
  | none => .error (.notAnArray value.typeName)

/-- A negative index counts from the end of the array. -/
def arrayGet (arguments : List Value) : Except Fault Value := do
  let (array, position) ← twoArguments arguments
  let items ← requireArray array
  match position.integer? with
  | none => .error (.notAnIndex position.typeName)
  | some word =>
      let index := word.toInt
      let resolved := if index < 0 then items.length + index else index
      let found := if resolved < 0 then none else items[resolved.toNat]?
      match found with
      | some item => return item
      | none => .error (.noElement index items.length)

def arraySize (arguments : List Value) : Except Fault Value := do
  let items ← requireArray (← oneArgument arguments)
  return .int (Int64.ofNat items.length)

def typeOf (arguments : List Value) : Except Fault Value := do
  let value ← oneArgument arguments
  return .string value.typeName

def passOn (arguments : List Value) : Except Fault Value := .ok (arguments.head?.getD .void)

/-- Writes the texts of all arguments as one line where the environment of the call writes. -/
def message (site : CallSite) (arguments : List Value) : Action := fun store =>
  match site.requireEnv with
  | .ok env => .ok .void (store.emit (String.join (arguments.map Value.text)) env.sink)
  | .error fault => .error fault store

def ofArguments (name : String) (arity : Arity) (isPure : Bool) (docs : String)
    (function : List Value → Except Fault Value) : Builtin where
  name := name
  arity := arity
  isPure := isPure
  docs := docs
  run := fun _ arguments => .ofExcept (function arguments)

def numeric : List Builtin :=
  [ofArguments "add" (.atLeast 1) true
      (Docs.compose "number" "a, [b...]" "Adds all the arguments together.") add,
    ofArguments "subtract" (.atLeast 2) true
      (Docs.compose "number" "a, b, [c...]"
        "Subtracts each following argument from the first.") subtract,
    ofArguments "multiply" (.atLeast 1) true
      (Docs.compose "number" "a, [b...]" "Multiplies all the arguments together.") multiply,
    ofArguments "divide" (.atLeast 2) true
      (Docs.compose "number" "a, b, [c...]"
        "Divides the first argument by each following one.") divide,
    ofArguments "modulo" (.exactly 2) true
      (Docs.compose "int" "a, b" "Returns the remainder of a divided by b.") modulo,
    ofArguments "lt" (.exactly 2) true
      (Docs.compose "boolean" "a, b" "Returns whether a is less than b.") lessThan,
    ofArguments "gt" (.exactly 2) true
      (Docs.compose "boolean" "a, b" "Returns whether a is greater than b.") greaterThan]

def general : List Builtin :=
  [ofArguments "concat" (.atLeast 0) true
      (Docs.compose "string" "[values...]" "Joins the text of every argument.") concat,
    ofArguments "equals" (.exactly 2) true
      (Docs.compose "boolean" "a, b"
        "Loosely compares two values; numeric strings equal their numbers.") equals,
    ofArguments "not" (.exactly 1) true
      (Docs.compose "boolean" "value" "Returns the opposite truthiness of value.") negate,
    ofArguments "typeof" (.exactly 1) true
      (Docs.compose "string" "value" "Returns the type name of value.") typeOf,
    ofArguments "dyn" (.between 0 1) false
      (Docs.compose "mixed" "[value]"
        "Returns value unchanged; the optimizer never folds it.") passOn,
    { name := "msg"
      arity := .atLeast 0
      docs := Docs.compose "void" "[values...]" "Writes the arguments to the script's output."
      run := message }]

def arrays : List Builtin :=
  [ofArguments "array" (.atLeast 0) false
      (Docs.compose "array" "[values...]" "Creates an array holding the arguments.") makeArray,
    ofArguments "array_get" (.exactly 2) true
      (Docs.compose "mixed" "array, index"
        "Returns the element at index; negative indexes count from the end.") arrayGet,
    ofArguments "array_size" (.exactly 1) true
      (Docs.compose "int" "array" "Returns the number of elements in the array.") arraySize]

def reflection : List Builtin :=
  [{ name := "reflect_pull"
     arity := .between 1 2
     docs := Docs.compose "mixed" "param, [name]" ("Returns information about the running " ++
       "script. param is one of label, command, varlist, line_num, col or file; varlist takes " ++
       "an optional variable name.")
     run := fun site arguments => .ofExcept (reflectPull site arguments) },
    { name := "reflect_docs"
      arity := .exactly 2
      docs := Docs.compose "string" "element, docField" ("Returns the documentation for an " ++
        "element. docField is one of type, return, args or description. Variables and " ++
        "procedures are checked for existence and yield null.")
      run := fun site arguments => .ofExcept (reflectDocs site arguments)
      staticCheck := some checkDocs
      foldWhen := some docsAreFixed }]

def builtins : List Builtin := numeric ++ general ++ arrays ++ reflection

def registry : Registry := .ofList builtins

end Prelude

end TreeScript
