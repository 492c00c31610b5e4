/-!
# Faults

What can go wrong inside a builtin function, and the words for it. A function that a host adds
has words of its own.
-/

namespace TreeScript

set_option autoImplicit false

inductive Fault where
  | notANumber (text : String)
  | notNumeric (typeName : String)
  | overflow (operation : String)
  | divisionByZero
  | tooFewArguments (operation : String) (needed : String)
  | absentArgument (index : Nat)
  | notAnArray (typeName : String)
  | notAnIndex (typeName : String)
  | noElement (index : Int) (size : Nat)
  | noEnvironment
  | unboundVariable (name : String)
  | unknownQuery
  | noSuchVariable (name : String)
  | noSuchProcedure (name : String)
  | noSuchFunction (name : String)
  | unknownDocField (name : String)
  | unreadableDocs (docs : String)
  | custom (message : String)
deriving DecidableEq, Inhabited

namespace Fault

def message : Fault → String
  | notANumber text => s!"Expecting a number, but received '{text}' instead"
  | notNumeric typeName => s!"Expecting a number, but received a {typeName} instead"
  | overflow operation => s!"Integer overflow in {operation}"
  | divisionByZero => "Division by 0!"
  | tooFewArguments operation needed => s!"{operation} needs at least {needed}"
  | absentArgument index => s!"argument {index} is missing"
  | notAnArray typeName => s!"Expecting an array, but received a {typeName} instead"
  | notAnIndex typeName => s!"Expecting an integer index, got {typeName}"
  | noElement index size =>
      s!"The element at index {index} does not exist (array has {size} elements)"
  | noEnvironment => "this function needs a runtime environment"
  | unboundVariable name => s!"Variable {name} is not bound"
  | unknownQuery =>
      "The arguments passed to reflect_pull are incorrect. Please check them and try again."
  | noSuchVariable name =>
      s!"Invalid variable provided: {name} does not exist in the current scope"
  | noSuchProcedure name =>
      s!"Invalid procedure name provided: {name} does not exist in the current scope"
  | noSuchFunction name => s!"Unknown function: {name}"
  | unknownDocField name => s!"Invalid docField provided: {name}"
  | unreadableDocs docs => s!"unable to parse documentation: {docs}"
  | custom message => message

end Fault

end TreeScript
