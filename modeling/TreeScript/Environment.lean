import TreeScript.Bindings
import TreeScript.Copy
/-!
# Environments

What a script runs against: variables, procedures, the names that its host gave to it, where it
writes to, and how many calls deep it is. The scope of a procedure starts without variables; an
environment that is copied has its values copied. Both write where the environment writes.
-/

namespace TreeScript

set_option autoImplicit false

structure Procedure where
  name : String
  params : List Param
  body : Tree
  position : Position

/-- The standard output, or a sink that a host has redirected the output to. -/
inductive Sink where
  | standard
  | redirected (identity : Nat)
deriving DecidableEq, Inhabited

structure Environment where
  vars : Bindings Value := {}
  procedures : Bindings Procedure := {}
  label : Option String := none
  command : Option String := none
  script : Option String := none
  sink : Sink := .standard
  depth : Nat := 0
deriving Inhabited

def argumentsVariable : String := "@arguments"

def copyEntries : List (String × Value) → Copying (List (String × Value))
  | [] => return []
  | (name, value) :: rest => do
      let copied ← value.copy
      return (name, copied) :: (← copyEntries rest)

namespace Environment

def get? (env : Environment) (name : String) : Option Value := env.vars.find? name

def set (env : Environment) (name : String) (value : Value) : Environment :=
  { env with vars := env.vars.put name value }

def remove (env : Environment) (name : String) : Environment :=
  { env with vars := env.vars.erase name }

def clear (env : Environment) : Environment := { env with vars := {} }

def procedure? (env : Environment) (name : String) : Option Procedure := env.procedures.find? name

def define (env : Environment) (procedure : Procedure) : Environment :=
  { env with procedures := env.procedures.put procedure.name procedure }

def procedureScope (env : Environment) : Environment := { env with vars := {} }

def copy (env : Environment) : Copying Environment := do
  return { env with vars := ⟨← copyEntries env.vars.entries⟩ }

def enterCall (env : Environment) (limit : Nat) : Except EvalError Environment :=
  if limit ≤ env.depth then .error (.stackOverflow (env.depth + 1) limit)
  else .ok { env with depth := env.depth + 1 }

def exitCall (env : Environment) : Environment := { env with depth := env.depth - 1 }

/-- Binds each parameter to the argument in its place, and one without an argument to a copy of
its default. Of two parameters with one name the later is in force. -/
def bindParams : List Param → List Value → Environment → Copying Environment
  | [], _, scope => return scope
  | param :: params, argument :: arguments, scope =>
      bindParams params arguments (scope.set param.name argument)
  | param :: params, [], scope => do
      let value ← param.default.copy
      bindParams params [] (scope.set param.name value)

/-- All arguments are bound together last, so this binding hides a parameter of that name. -/
def bindArguments (params : List Param) (arguments : List Value) (scope : Environment) :
    Copying Environment := do
  let scope ← bindParams params arguments scope
  return scope.set argumentsVariable (.array arguments)

end Environment

end TreeScript
