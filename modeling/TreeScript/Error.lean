import TreeScript.Fault
import TreeScript.Value
/-!
# Errors

Why a value cannot be copied, why a script does not compile and why its evaluation ends early.
-/

namespace TreeScript

set_option autoImplicit false

structure CopyError where
  typeName : String
deriving DecidableEq, Inhabited

namespace CopyError

def message (error : CopyError) : String :=
  s!"value of type `{error.typeName}` cannot be copied"

end CopyError

/-- A special form whose children have the wrong shape. The texts are those of the children. -/
inductive Malformation where
  | assignment (found : String)
  | procedureName (found : String)
  | parameter (found : String)
deriving DecidableEq, Inhabited

inductive CompileError where
  | unknownFunction (name : String) (position : Position)
  | arityMismatch (name : String) (expected : Arity) (got : Nat) (position : Position)
  | foldFailed (name : String) (fault : Fault) (position : Position)
  | invalidArgument (name : String) (fault : Fault) (position : Position)
  | malformed (cause : Malformation) (position : Position)
deriving DecidableEq, Inhabited

namespace CompileError

def position : CompileError → Position
  | unknownFunction _ position => position
  | arityMismatch _ _ _ position => position
  | foldFailed _ _ position => position
  | invalidArgument _ _ position => position
  | malformed _ position => position

def causeText : Malformation → String
  | .assignment found => s!"assign expects a variable, found `{found}`"
  | .procedureName found => s!"Procedure names must start with an underscore, found `{found}`"
  | .parameter found => s!"`{found}` is not a valid parameter"

def message : CompileError → String
  | unknownFunction name position => s!"Unknown function `{name}` at {position.text}"
  | arityMismatch name expected got position =>
      s!"`{name}` expects {expected.text} arguments, got {got} at {position.text}"
  | foldFailed name fault position =>
      s!"{fault.message} (while folding `{name}` at {position.text})"
  | invalidArgument _ fault position => s!"{fault.message} at {position.text}"
  | malformed cause position => s!"{causeText cause} at {position.text}"

end CompileError

inductive TypeFault where
  | assignment (found : String)
  | procedureName (found : String)
  | parameter (found : String)
  | callee (typeName : String)
deriving DecidableEq, Inhabited

/-- Why an evaluation stops before its end. A `return` stops it too, on its way out to the
procedure, the closure or the script around it. -/
inductive EvalError where
  | undefinedVariable (name : String) (position : Position)
  | undefinedProcedure (name : String) (position : Position)
  | unknownFunction (name : String) (position : Position)
  | typeError (cause : TypeFault) (position : Position)
  | arityMismatch (name : String) (expected : Arity) (got : Nat) (position : Position)
  | builtin (name : String) (fault : Fault) (position : Position)
  | stackOverflow (depth limit : Nat)
  | interrupted
  | returned (value : Value)
  | copy (cause : CopyError)
  | internal (message : String)
deriving Inhabited

namespace EvalError

def causeText : TypeFault → String
  | .assignment found => s!"assign expects a variable, found {found}"
  | .procedureName found => s!"procedure names must start with an underscore, found `{found}`"
  | .parameter found => s!"`{found}` is not a valid parameter"
  | .callee typeName => s!"execute expects a closure as its last argument, found {typeName}"

def message : EvalError → String
  | undefinedVariable name position => s!"Variable `{name}` is not bound at {position.text}"
  | undefinedProcedure name position => s!"Unknown procedure `{name}` at {position.text}"
  | unknownFunction name position => s!"Unknown function `{name}` at {position.text}"
  | typeError cause position => s!"Type error: {causeText cause} at {position.text}"
  | arityMismatch name expected got position =>
      s!"`{name}` expects {expected.text} arguments, got {got} at {position.text}"
  | builtin name fault position => s!"{name}: {fault.message} at {position.text}"
  | stackOverflow depth limit => s!"Stack overflow: call depth {depth} exceeds maximum {limit}"
  | interrupted => "Evaluation interrupted"
  | returned value =>
      s!"control flow escaped its construct: Return \x7b value: {value.diagnostic} \x7d"
  | copy cause => s!"Internal error: {cause.message}"
  | internal message => s!"Internal error: {message}"

/-- Errors that are not the fault of the script. -/
def isInternal : EvalError → Bool
  | copy _ | internal _ => true
  | _ => false

end EvalError

end TreeScript
