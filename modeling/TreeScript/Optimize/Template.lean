import TreeScript.Optimize.Scopes
import TreeScript.Tree.Edit
import TreeScript.Registry
/-!
# Inlining

Which procedures a call can be replaced by, which calls can be replaced, and by what. A procedure
must return one expression without side effects that reads nothing but its parameters. A call must
pass arguments without side effects, and an argument that is not constant must be read on every
path through the expression, so that an error in it is not lost.
-/

namespace TreeScript

set_option autoImplicit false

namespace Tree

def isSideEffectFree (registry : Registry) (tree : Tree) : Bool :=
  tree.functionNames.all fun name =>
    registry.isPure name || (SpecialForm.ofName? name).any SpecialForm.isTransparent

/-- The expression of a body that is `return(expression)`. -/
def returned? (body : Tree) : Option Tree :=
  if body.specialForm? = some .returning then
    match body.children with
    | [expression] => some expression
    | _ => none
  else none

def readName (payload : Payload) : List String := payload.variableName?.toList

def isConditional (payload : Payload) : Bool :=
  match payload.functionName?.bind SpecialForm.ofName? with
  | some .conditional | some .choice => true
  | _ => false

mutual

/-- The variables that are read whichever branches are taken. Of a conditional only the first
condition is certain to be evaluated. -/
def certainReads : Tree → List String
  | ⟨payload, _, _, _, children⟩ =>
      readName payload ++
        if isConditional payload then firstReads children else allReads children

def allReads : List Tree → List String
  | [] => []
  | child :: rest => certainReads child ++ allReads rest

def firstReads : List Tree → List String
  | [] => []
  | condition :: _ => certainReads condition

end

mutual

def substitute (bindings : Bindings Tree) : Tree → Tree
  | ⟨payload, position, optimized, _, children⟩ =>
      match payload.variableName?.bind bindings.find? with
      | some tree => tree.copy
      | none => ⟨payload, position, optimized, {}, substituteAll bindings children⟩

def substituteAll (bindings : Bindings Tree) : List Tree → List Tree
  | [] => []
  | child :: rest => substitute bindings child :: substituteAll bindings rest

end

end Tree

namespace Slot

/-- A parameter of a template is well formed and has a constant default or none. -/
def ofNode? (node : Tree) : Option Slot :=
  match node.parameter? with
  | some (name, none) => some ⟨name, none⟩
  | some (name, some default) => if default.isConstant then some ⟨name, some default⟩ else none
  | none => none

end Slot

namespace Definition

/-- What a definition with the given name, parameters and body allows, and the body as the
questions about it leave it: the names in it are remembered as far as they have been asked for. -/
def analyze (registry : Registry) (name : String) (params : List Tree) (body : Tree) :
    Definition × Tree :=
  match body.returned? with
  | none => (hidden, body)
  | some expression =>
      let body := body.remember .functionNames
      if body.functionNames.contains name then (hidden, body)
      else
        match params.mapM Slot.ofNode? with
        | none => (hidden, body)
        | some slots =>
            let known := slots.map Slot.name
            let asked := expression.remember .variableNames
            if asked.variableNames.all known.contains then
              let body := { body with children := [asked.remember .functionNames] }
              if expression.isSideEffectFree registry then
                (inlinable ⟨slots, expression.certainReads, expression.freshCopy⟩, body)
              else (hidden, body)
            else (hidden, { body with children := [asked] })

end Definition

namespace Template

def accepts (registry : Registry) (template : Template) (arguments : List Tree) : Bool :=
  arguments.length ≤ template.slots.length &&
    arguments.all (Tree.isSideEffectFree registry) &&
    (arguments.zip template.slots).all fun (argument, slot) =>
      argument.isConstant || template.strict.contains slot.name

/-- Binds each parameter to its argument or its default. The later of two parameters with one
name is in force. -/
def bind? : List Slot → List Tree → Bindings Tree → Option (Bindings Tree)
  | [], _, bindings => some bindings
  | slot :: slots, argument :: arguments, bindings =>
      bind? slots arguments (bindings.put slot.name argument)
  | slot :: slots, [], bindings => do
      let default ← slot.default
      bind? slots [] (bindings.put slot.name default)

/-- The expression that replaces a call, if it can be replaced. It takes the position of the
call. -/
def instantiate? (registry : Registry) (template : Template) (arguments : List Tree)
    (position : Position) : Option Tree :=
  if template.accepts registry arguments then
    (bind? template.slots arguments {}).map fun bindings =>
      (template.body.freshCopy.substitute bindings).placeAt position
  else none

/-- The arguments of a call after they have been looked at: their functions are remembered, up to
the first argument with a side effect. -/
def inspect (registry : Registry) : List Tree → List Tree
  | [] => []
  | argument :: rest =>
      let asked := argument.remember .functionNames
      asked :: if argument.isSideEffectFree registry then inspect registry rest else rest

end Template

end TreeScript
