import TreeScript.Text.Quoted
import TreeScript.Number.Integer
import TreeScript.Number.DoubleText
import TreeScript.Tree.Basic
/-!
# The text of values and trees

A value has the text that scripts see when they join values, and a diagnostic form that tells a
string from a number. The text of a tree looks like the source of the script; the text of a
closure is the text of its body.
-/

namespace TreeScript

set_option autoImplicit false

/-- Statements written side by side have nothing between them. -/
def Tree.separator (name : String) : String :=
  if SpecialForm.ofName? name = some .autoConcat then "" else ","

mutual

def Value.text : Value → String
  | .void => ""
  | .null => "null"
  | .bool flag => if flag then "true" else "false"
  | .int number => Integer.text number
  | .double number => Double.text number
  | .string text => text
  | .array items => "\x7b" ++ Value.texts items ++ "\x7d"
  | .closure callee => Closure.text callee
  | .resource handle => "<resource " ++ handle.typeName ++ ">"

def Value.texts : List Value → String
  | [] => ""
  | [item] => Value.text item
  | item :: rest => Value.text item ++ ", " ++ Value.texts rest

def Closure.text : Closure → String
  | ⟨_, _, body, _⟩ => Tree.text body

def Tree.text : Tree → String
  | ⟨.call name, _, _, _, children⟩ =>
      name ++ "(" ++ Tree.texts (Tree.separator name) children ++ ")"
  | ⟨.variable name, _, _, _, _⟩ => name
  | ⟨.literal (.string text), _, _, _, _⟩ => Text.quote text
  | ⟨.literal value, _, _, _, _⟩ => Value.text value

def Tree.texts (separator : String) : List Tree → String
  | [] => ""
  | [child] => Tree.text child
  | child :: rest => Tree.text child ++ separator ++ Tree.texts separator rest

end

def Payload.text : Payload → String
  | .literal value => value.text
  | .variable name => name
  | .call name => name

/-- The payload of a node and the payloads of its children. -/
def Tree.summary (tree : Tree) : String :=
  tree.payload.text ++ ":[" ++
    ", ".intercalate (tree.children.map fun child => child.payload.text) ++ "]"

mutual

def Value.diagnostic : Value → String
  | .void => "void"
  | .string text => Text.diagnostic text
  | .array items => "\x7b" ++ Value.diagnostics items ++ "\x7d"
  | .closure callee => "<closure " ++ callee.text ++ ">"
  | value => value.text

def Value.diagnostics : List Value → String
  | [] => ""
  | [item] => Value.diagnostic item
  | item :: rest => Value.diagnostic item ++ ", " ++ Value.diagnostics rest

end

theorem Tree.text_call (name : String) (position : Position) (optimized : Bool) (facts : Facts)
    (children : List Tree) :
    Tree.text ⟨.call name, position, optimized, facts, children⟩ =
      name ++ "(" ++ Tree.texts (Tree.separator name) children ++ ")" := by
  simp only [Tree.text]

end TreeScript
