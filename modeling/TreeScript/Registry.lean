import TreeScript.Store
/-!
# Builtin functions

A builtin function has a name, an arity, documentation and an action on evaluated arguments. It
may be pure, may check its arguments before the script runs, and may allow single calls to be
folded although it is not pure. The registry holds the functions that scripts can call.

A function sees the registry only as a catalogue: which names there are, which of them are pure,
and their documentation.
-/

namespace TreeScript

set_option autoImplicit false

/-- What one function tells the others about itself. -/
structure CatalogueEntry where
  isPure : Bool
  docs : String
deriving DecidableEq, Inhabited

abbrev Catalogue := Bindings CatalogueEntry

namespace Catalogue

def isPure (catalogue : Catalogue) (name : String) : Bool :=
  (catalogue.find? name).any (·.isPure)

/-- Special forms have documentation too, and it hides that of a function of the same name. -/
def docs? (catalogue : Catalogue) (name : String) : Option String :=
  match SpecialForm.ofName? name with
  | some form => some form.docs
  | none => (catalogue.find? name).map (·.docs)

end Catalogue

/-- Where a function is called from. While a script is compiled there is no environment. -/
structure CallSite where
  position : Position
  env : Option Environment
  catalogue : Catalogue

abbrev Action := EStateM Fault Store Value

namespace CallSite

def requireEnv (site : CallSite) : Except Fault Environment :=
  match site.env with
  | some env => .ok env
  | none => .error .noEnvironment

end CallSite

def Action.ofExcept (result : Except Fault Value) : Action := fun store =>
  match result with
  | .ok value => .ok value store
  | .error fault => .error fault store

structure Builtin where
  name : String
  arity : Arity
  isPure : Bool := false
  docs : String := ""
  run : CallSite → List Value → Action
  staticCheck : Option (List Tree → Catalogue → Except Fault Unit) := none
  foldWhen : Option (List Tree → Bool) := none

namespace Builtin

/-- Whether a call with these arguments may be replaced by its result. -/
def isFoldable (builtin : Builtin) (arguments : List Tree) : Bool :=
  builtin.isPure || builtin.foldWhen.any fun accepts => accepts arguments

end Builtin

structure Registry where
  builtins : Bindings Builtin := {}
deriving Inhabited

namespace Registry

def register (registry : Registry) (builtin : Builtin) : Registry :=
  ⟨registry.builtins.put builtin.name builtin⟩

def ofList (builtins : List Builtin) : Registry := builtins.foldl register {}

def find? (registry : Registry) (name : String) : Option Builtin := registry.builtins.find? name

def contains (registry : Registry) (name : String) : Bool := registry.builtins.contains name

def isPure (registry : Registry) (name : String) : Bool := (registry.find? name).any (·.isPure)

def size (registry : Registry) : Nat := registry.builtins.size

def isEmpty (registry : Registry) : Bool := registry.builtins.isEmpty

/-- The names of the functions in the order of their characters. -/
def names (registry : Registry) : List String :=
  registry.builtins.names.mergeSort fun first second => !decide (second < first)

def catalogue (registry : Registry) : Catalogue :=
  ⟨registry.builtins.entries.map fun (name, builtin) => (name, ⟨builtin.isPure, builtin.docs⟩)⟩

def docs? (registry : Registry) (name : String) : Option String := registry.catalogue.docs? name

theorem find?_register (registry : Registry) (builtin : Builtin) (name : String) :
    (registry.register builtin).find? name =
      if name = builtin.name then some builtin else registry.find? name :=
  Bindings.find?_put registry.builtins builtin.name name builtin

end Registry

end TreeScript
