import TreeScript.Position
import TreeScript.SpecialForm
/-!
# Values and trees

A script is a tree. Each node has a payload, which is a literal value, a variable or the name of
a call, and an ordered list of children. A closure is a value that holds a tree, so values and
trees are defined together.

A closure and a resource carry an identity, which is what equality of the two looks at. The
variables that a closure has captured are kept outside of the value, under its identity.
-/

namespace TreeScript

set_option autoImplicit false

/-- What a resource answers when it is asked for a duplicate: that there is none, that there is one
of a new name with a lineage of its own, or that there always is one of the same name.

This stands for the hosts whose answer is a matter of the resource alone. Asked again it answers the
same, a duplicate is a resource that nobody else has yet, and asking changes nothing else. A host
that keeps count of its duplicates, say, and answers by that count is not among them. -/
inductive Lineage where
  | last
  | next (typeName : String) (after : Lineage)
  | endless
deriving Inhabited

structure Resource where
  identity : Nat
  typeName : String
  lineage : Lineage
deriving Inhabited

/-- What a node remembers of the names in its subtree. -/
structure Facts where
  functionNames : Option (List String) := none
  variableNames : Option (List String) := none
deriving Inhabited, DecidableEq

mutual

inductive Value where
  | void
  | null
  | bool (flag : Bool)
  | int (number : Int64)
  | double (number : Float)
  | string (text : String)
  | array (items : List Value)
  | closure (closure : Closure)
  | resource (resource : Resource)

structure Param where
  name : String
  default : Value

structure Closure where
  identity : Nat
  params : List Param
  body : Tree
  position : Position

inductive Payload where
  | literal (value : Value)
  | variable (name : String)
  | call (name : String)

/-- A node and its subtree. The flag says that an optimizer has settled the node. -/
structure Tree where
  payload : Payload
  position : Position
  optimized : Bool
  facts : Facts
  children : List Tree

end

instance : Inhabited Value := ⟨.null⟩

namespace Payload

def isConstant : Payload → Bool
  | literal _ => true
  | _ => false

def functionName? : Payload → Option String
  | call name => some name
  | _ => none

def variableName? : Payload → Option String
  | .variable name => some name
  | _ => none

def value? : Payload → Option Value
  | literal value => some value
  | _ => none

end Payload

namespace Tree

/-- A fresh node: not settled, and nothing remembered. -/
def node (payload : Payload) (children : List Tree) (position : Position) : Tree :=
  ⟨payload, position, false, {}, children⟩

def literal (value : Value) (position : Position) : Tree := node (.literal value) [] position

def call (name : String) (children : List Tree) (position : Position) : Tree :=
  node (.call name) children position

def void (position : Position) : Tree := literal .void position

instance : Inhabited Tree := ⟨literal .null .unknown⟩

def placeAt (tree : Tree) (position : Position) : Tree := { tree with position }

def settle (tree : Tree) (flag : Bool) : Tree := { tree with optimized := flag }

def isConstant (tree : Tree) : Bool := tree.payload.isConstant

def functionName? (tree : Tree) : Option String := tree.payload.functionName?

def value? (tree : Tree) : Option Value := tree.payload.value?

def specialForm? (tree : Tree) : Option SpecialForm :=
  tree.functionName?.bind SpecialForm.ofName?

/-- A parameter is written `@name` or `assign(@name, default)`. -/
def parameter? (tree : Tree) : Option (String × Option Tree) :=
  match tree.payload with
  | .literal _ => none
  | .variable name => some (name, none)
  | .call _ =>
      if tree.specialForm? = some .assignment then
        match tree.children with
        | ⟨.variable name, _, _, _, _⟩ :: default :: _ => some (name, some default)
        | _ => none
      else none

/-- A definition names its procedure by a string or by a call without arguments. -/
def procedureName? (tree : Tree) : Option String :=
  match tree.payload with
  | .literal (.string name) => some name
  | .call name => if tree.children.isEmpty && tree.specialForm?.isNone then some name else none
  | _ => none

def isProcedureName (name : String) : Bool := name.toList.head? == some '_'

variable {tree : Tree}

theorem isConstant_eq (tree : Tree) : tree.isConstant = tree.value?.isSome := by
  rcases tree with ⟨payload, position, optimized, facts, children⟩
  cases payload <;> rfl

theorem payload_of_value {value : Value} (shown : tree.value? = some value) :
    tree.payload = .literal value := by
  rcases tree with ⟨payload, position, optimized, facts, children⟩
  cases payload with
  | literal other =>
      cases shown
      rfl
  | _ => cases shown

/-- Only calls are special forms, and each form has one name. -/
theorem payload_of_specialForm {form : SpecialForm} (special : tree.specialForm? = some form) :
    tree.payload = .call form.name := by
  rcases tree with ⟨payload, position, optimized, facts, children⟩
  cases payload with
  | call name => rw [(SpecialForm.ofName?_eq_some_iff name form).mp special]
  | _ => cases special

theorem eq_call_of_specialForm {form : SpecialForm} (special : tree.specialForm? = some form) :
    ∃ position optimized facts children,
      tree = ⟨.call form.name, position, optimized, facts, children⟩ := by
  have called := payload_of_specialForm special
  rcases tree with ⟨payload, position, optimized, facts, children⟩
  obtain rfl : payload = .call form.name := called
  exact ⟨position, optimized, facts, children, rfl⟩

end Tree

end TreeScript
