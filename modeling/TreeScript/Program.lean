import TreeScript.Evaluate
import TreeScript.Optimize
import TreeScript.Prelude
/-!
# Running programs

What a host does with scripts and closures. If the context reacts to errors, the host is told of
the error that ends a run; an error found while a script is compiled is only given back.
-/

namespace TreeScript

set_option autoImplicit false

namespace Context

/-- The prelude, and the limits that hold unless the host sets others. -/
def standard : Context := { registry := Prelude.registry }

def reporting {Result : Type} (context : Context) (action : Run Result) : Run Result :=
  fun machine =>
    match action machine with
    | .ok result after => .ok result after
    | .error error after =>
        .error error <|
          if context.reacts then { after with store := after.store.report error } else after

end Context

inductive ProgramError where
  | compile (error : CompileError)
  | eval (error : EvalError)
deriving Inhabited

namespace Tree

def run (context : Context) (tree : Tree) : Run Value := context.reporting (tree.execute context)

def compileAndRun (context : Context) (tree : Tree) : EStateM ProgramError Machine Value :=
  fun machine =>
    match Optimizer.optimize { registry := context.registry } tree machine.store with
    | .error error store => .error (.compile error) { machine with store }
    | .ok optimized store =>
        match optimized.run context { machine with store } with
        | .ok value after => .ok value after
        | .error error after => .error (.eval error) after

end Tree

namespace Closure

/-- Invokes a closure for the host. The environment of the machine plays no part in it. -/
def call (context : Context) (closure : Closure) (arguments : List Value) : Run Value :=
  context.reporting (closure.execute context arguments)

def environment (closure : Closure) : EStateM CopyError Store Environment := fun store =>
  Store.copying (store.environmentOf closure).copy store

end Closure

end TreeScript
