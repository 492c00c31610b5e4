import TreeScript.Environment
/-!
# The store

What environments share: the environments that closures captured, the identities given to
resources, the lines that each sink has received so far, the errors reported to the host and the
flag that interrupts an evaluation.
-/

namespace TreeScript

set_option autoImplicit false

structure Store where
  captured : Array Environment := #[]
  resources : Nat := 0
  output : Array String := #[]
  redirected : Nat → Array String := fun _ => #[]
  reports : Array String := #[]
  interrupted : Bool := false
deriving Inhabited

namespace Store

/-- What a sink has received, in order. -/
def lines (store : Store) : Sink → Array String
  | .standard => store.output
  | .redirected identity => store.redirected identity

def emit (store : Store) (line : String) (sink : Sink := .standard) : Store :=
  { store with
    output := if sink = .standard then store.output.push line else store.output
    redirected := fun identity =>
      if sink = .redirected identity then (store.redirected identity).push line
      else store.redirected identity }

theorem lines_emit (store : Store) (line : String) (sink other : Sink) :
    (store.emit line sink).lines other =
      if sink = other then (store.lines other).push line else store.lines other := by
  cases other <;> rfl

def report (store : Store) (error : EvalError) : Store :=
  { store with reports := store.reports.push error.message }

def interrupt (store : Store) : Store := { store with interrupted := true }

def resetInterrupt (store : Store) : Store := { store with interrupted := false }

def environmentOf (store : Store) (closure : Closure) : Environment :=
  store.captured[closure.identity]?.getD {}

/-- Changes what a closure captured, for all who hold the closure. -/
def modifyCaptured (store : Store) (closure : Closure) (change : Environment → Environment) :
    Store :=
  { store with captured := store.captured.modify closure.identity change }

def copying {Result : Type} (action : Copying Result) : EStateM CopyError Store Result :=
  fun store =>
    match action store.resources with
    | .ok result fresh => .ok result { store with resources := fresh }
    | .error error fresh => .error error { store with resources := fresh }

def newResource (store : Store) (typeName : String) (lineage : Lineage) : Resource × Store :=
  (⟨store.resources, typeName, lineage⟩, { store with resources := store.resources + 1 })

/-- A new closure. It captures a copy of the environment, not the environment itself. -/
def newClosure (params : List Param) (body : Tree) (position : Position) (env : Environment) :
    EStateM CopyError Store Closure := do
  let captured ← copying env.copy
  let store ← get
  set { store with captured := store.captured.push captured }
  return ⟨store.captured.size, params, body, position⟩

end Store

end TreeScript
