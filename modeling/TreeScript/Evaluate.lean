import TreeScript.Registry
/-!
# Evaluation

A tree is evaluated in an environment, which it changes, and against the store. Special forms
evaluate their own arguments; the arguments of every other call are evaluated from left to right
before the call. The body of a procedure runs in a scope of its own, and that of a closure in a
copy of what the closure captured; neither can change the environment of its caller.

Inside one body the evaluation follows the tree. Entering a body uses up one of the calls that the
limit of the context allows, so `bodyRunner` counts them down.
-/

namespace TreeScript

set_option autoImplicit false

structure Context where
  registry : Registry
  maxDepth : Nat := 1000
  trace : Bool := false
  reacts : Bool := false

structure Machine where
  env : Environment := {}
  store : Store := {}
deriving Inhabited

/-- An evaluation. Its changes stay, also when it ends with an error. -/
abbrev Run := EStateM EvalError Machine

namespace Run

def copying {Result : Type} (action : EStateM CopyError Store Result) : Run Result :=
  fun machine =>
    match action machine.store with
    | .ok result store => .ok result { machine with store }
    | .error error store => .error (.copy error) { machine with store }

def ofExcept {Result : Type} (result : Except EvalError Result) : Run Result := fun machine =>
  match result with
  | .ok value => .ok value machine
  | .error error => .error error machine

def modifyEnv (change : Environment → Environment) : Run Unit :=
  modify fun machine => { machine with env := change machine.env }

end Run

/-- Every node checks the flag before it is evaluated. -/
def checkInterrupt : Run Unit := do
  if (← get).store.interrupted then throw .interrupted

/-- Runs a body in a scope of its own. A body has a value only if it returns one. -/
def runBody (run : Tree → Run Value) (scope : Environment) (body : Tree) : Run Value :=
  fun machine =>
    match run body ⟨scope, machine.store⟩ with
    | .ok _ after => .ok .void { machine with store := after.store }
    | .error (.returned value) after => .ok value { machine with store := after.store }
    | .error error after => .error error { machine with store := after.store }

/-- Enters a body one call deeper than its scope, with the parameters bound there. -/
def invoke (context : Context) (run : Tree → Run Value) (params : List Param) (body : Tree)
    (arguments : List Value) (scope : Environment) : Run Value := do
  let entered ← Run.ofExcept (scope.enterCall context.maxDepth)
  let bound ← Run.copying (Store.copying (entered.bindArguments params arguments))
  runBody run bound body

def callProcedure (context : Context) (run : Tree → Run Value) (procedure : Procedure)
    (arguments : List Value) : Run Value := do
  let scope := (← get).env.procedureScope
  invoke context run procedure.params procedure.body arguments scope

/-- A closure is invoked at the depth of its caller, in a copy of what it captured. -/
def callClosure (context : Context) (run : Tree → Run Value) (closure : Closure)
    (arguments : List Value) (depth : Nat) : Run Value := do
  let captured := (← get).store.environmentOf closure
  let scope ← Run.copying (Store.copying captured.copy)
  invoke context run closure.params closure.body arguments { scope with depth }

def callBuiltin (context : Context) (builtin : Builtin) (name : String) (position : Position)
    (arguments : List Value) : Run Value := do
  if builtin.arity.accepts arguments.length then
    fun machine =>
      let site := ⟨position, some machine.env, context.registry.catalogue⟩
      match builtin.run site arguments machine.store with
      | .ok value store => .ok value { machine with store }
      | .error fault store => .error (.builtin name fault position) { machine with store }
  else throw (.arityMismatch name builtin.arity arguments.length position)

def definedName (position : Position) (node : Tree) : Run String :=
  match node.procedureName?.filter Tree.isProcedureName with
  | some name => return name
  | none => throw (.typeError (.procedureName node.text) position)

/-- The last child of a definition, after its name and its parameters, is the body. -/
def bodyOf (children : List Tree) : Tree := children.getLast?.getD (.void .unknown)

def captureClosure (params : List Param) (body : Tree) (position : Position) : Run Value := do
  let env := (← get).env
  let closure ← Run.copying (Store.newClosure params body position env)
  return .closure closure

/-- The last of the values is called with those before it. -/
def callValue (context : Context) (run : Tree → Run Value) (position : Position)
    (values : List Value) : Run Value := do
  let callee := values.getLast?.getD .void
  match callee with
  | .closure closure => do
      let depth := (← get).env.depth
      callClosure context run closure values.dropLast depth
  | _ => throw (.typeError (.callee callee.typeName) position)

mutual

def evaluate (context : Context) (run : Tree → Run Value) : Tree → Run Value
  | ⟨.literal value, _, _, _, _⟩ => do
      checkInterrupt
      return value
  | ⟨.variable name, position, _, _, _⟩ => do
      checkInterrupt
      match (← get).env.get? name with
      | some value => return value
      | none => throw (.undefinedVariable name position)
  | ⟨.call name, position, _, _, children⟩ => do
      checkInterrupt
      match SpecialForm.ofName? name with
      | some form =>
          if form.arity.accepts children.length then
            match form with
            | .autoConcat | .sequence => evaluateSequence context run .void children
            | .conditional | .choice => evaluateBranches context run children
            | .procedure => evaluateDefinition context run position children
            | .assignment => evaluateAssignment context run position children
            | .returning => do
                let value ← evaluateSequence context run .void children
                throw (.returned value)
            | .closure => do
                let params ← evaluateParams context run children
                captureClosure params (bodyOf children) position
            | .execution => do
                let values ← evaluateAll context run children
                callValue context run position values
          else throw (.arityMismatch name form.arity children.length position)
      | none =>
          if Tree.isProcedureName name then
            match (← get).env.procedure? name with
            | some procedure => do
                let arguments ← evaluateAll context run children
                callProcedure context run procedure arguments
            | none => throw (.undefinedProcedure name position)
          else
            match context.registry.find? name with
            | some builtin => do
                let arguments ← evaluateAll context run children
                callBuiltin context builtin name position arguments
            | none => throw (.unknownFunction name position)

def evaluateAll (context : Context) (run : Tree → Run Value) : List Tree → Run (List Value)
  | [] => return []
  | node :: rest => do
      let value ← evaluate context run node
      return value :: (← evaluateAll context run rest)

/-- The value of the last statement, or the given one if there is none. -/
def evaluateSequence (context : Context) (run : Tree → Run Value) (last : Value) :
    List Tree → Run Value
  | [] => return last
  | statement :: rest => do
      let value ← evaluate context run statement
      evaluateSequence context run value rest

/-- Conditions and branches in turn, then perhaps a branch without a condition. -/
def evaluateBranches (context : Context) (run : Tree → Run Value) : List Tree → Run Value
  | [] => return .void
  | [otherwise] => evaluate context run otherwise
  | condition :: branch :: rest => do
      let decision ← evaluate context run condition
      if decision.isTruthy then evaluate context run branch
      else evaluateBranches context run rest

def evaluateAssignment (context : Context) (run : Tree → Run Value) (position : Position) :
    List Tree → Run Value
  | ⟨.variable name, _, _, _, _⟩ :: expression :: _ => do
      let value ← evaluate context run expression
      Run.modifyEnv (·.set name value)
      return value
  | node :: _ => throw (.typeError (.assignment node.payload.text) position)
  | [] => return .void

def evaluateDefinition (context : Context) (run : Tree → Run Value) (position : Position) :
    List Tree → Run Value
  | [] => return .void
  | nameNode :: rest => do
      let name ← definedName position nameNode
      let params ← evaluateParams context run rest
      Run.modifyEnv (·.define ⟨name, params, bodyOf rest, position⟩)
      return .void

/-- The parameters before the body. A default is evaluated where the definition stands. -/
def evaluateParams (context : Context) (run : Tree → Run Value) : List Tree → Run (List Param)
  | [] => return []
  | [_] => return []
  | node :: next :: rest => do
      let param ← evaluateParam context run node
      return param :: (← evaluateParams context run (next :: rest))

def evaluateParam (context : Context) (run : Tree → Run Value) : Tree → Run Param
  | ⟨.variable name, _, _, _, _⟩ => return ⟨name, .null⟩
  | ⟨payload, position, optimized, facts, ⟨.variable name, p, o, f, c⟩ :: expression :: rest⟩ => do
      let node : Tree := ⟨payload, position, optimized, facts, ⟨.variable name, p, o, f, c⟩ ::
        expression :: rest⟩
      if node.specialForm? = some .assignment then
        let value ← evaluate context run expression
        return ⟨name, value⟩
      else throw (.typeError (.parameter node.text) position)
  | node => throw (.typeError (.parameter node.text) node.position)

end

/-- What an optimizer notes on a node does not matter for its evaluation. -/
theorem evaluate_notes (context : Context) (run : Tree → Run Value) (position : Position)
    (optimized : Bool) (facts : Facts) (children : List Tree) (payload : Payload)
    (optimized' : Bool) (facts' : Facts) :
    evaluate context run ⟨payload, position, optimized, facts, children⟩ =
      evaluate context run ⟨payload, position, optimized', facts', children⟩ := by
  cases payload <;> simp only [evaluate]

/-- Runs bodies while calls are left. The last of them cannot enter a further body. -/
def bodyRunner (context : Context) : Nat → Tree → Run Value
  | 0 => fun _ => throw (.stackOverflow (context.maxDepth + 1) context.maxDepth)
  | calls + 1 => evaluate context (bodyRunner context calls)

namespace Tree

/-- The calls left at a depth are those up to the limit. -/
def eval (context : Context) (tree : Tree) : Run Value := do
  let depth := (← get).env.depth
  evaluate context (bodyRunner context (context.maxDepth - depth)) tree

/-- A `return` outside of all bodies ends the script with its value. -/
def execute (context : Context) (tree : Tree) : Run Value := fun machine =>
  match tree.eval context machine with
  | .error (.returned value) after => .ok value after
  | outcome => outcome

end Tree

namespace Closure

def execute (context : Context) (closure : Closure) (arguments : List Value) : Run Value :=
  callClosure context (bodyRunner context context.maxDepth) closure arguments 0

end Closure

end TreeScript
