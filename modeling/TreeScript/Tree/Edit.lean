import TreeScript.Tree.Facts
/-!
# Editing trees in place

Edits of one node, and edits of a node somewhere below. An edit makes every node that it passes
forget what it remembered, because the subtree of that node is about to change.
-/

namespace TreeScript

set_option autoImplicit false

/-- There is no child with the index. -/
structure TreeError where
  index : Nat
  length : Nat
deriving DecidableEq, Inhabited

namespace TreeError

def message (error : TreeError) : String :=
  s!"child index {error.index} out of range for node with {error.length} children"

end TreeError

namespace Tree

def child? (tree : Tree) (index : Nat) : Except TreeError Tree :=
  match tree.children[index]? with
  | some child => .ok child
  | none => .error ⟨index, tree.children.length⟩

def setPayload (tree : Tree) (payload : Payload) : Tree := { tree.forget with payload }

def setChildren (tree : Tree) (children : List Tree) : Tree := { tree.forget with children }

def modifyChildren (tree : Tree) (change : List Tree → List Tree) : Tree :=
  tree.setChildren (change tree.children)

def addChild (tree child : Tree) : Tree := tree.modifyChildren (· ++ [child])

def removeAllChildren (tree : Tree) : Tree := tree.setChildren []

def takeChildren (tree : Tree) : List Tree × Tree := (tree.children, tree.setChildren [])

/-- The new child goes before the one with the index, or after all of them. -/
def insertChild (tree : Tree) (index : Nat) (child : Tree) : Except TreeError Tree :=
  if index ≤ tree.children.length then
    .ok (tree.modifyChildren fun children => children.take index ++ child :: children.drop index)
  else .error ⟨index, tree.children.length⟩

def removeChild (tree : Tree) (index : Nat) : Except TreeError (Tree × Tree) :=
  match tree.children[index]? with
  | some child => .ok (child, tree.modifyChildren (·.eraseIdx index))
  | none => .error ⟨index, tree.children.length⟩

def descend (tree : Tree) : List Nat → Except TreeError Tree
  | [] => .ok tree
  | index :: path => do (← tree.child? index).descend path

/-- Asks the node at the end of a path. The nodes on the way there stay as they are. -/
def askAt (kind : FactKind) : List Nat → Tree → Except TreeError (List String × Tree)
  | [], tree => .ok (tree.ask kind)
  | index :: path, tree => do
      let child ← tree.child? index
      let (found, child) ← askAt kind path child
      return (found, { tree with children := tree.children.set index child })

/-- Changes the node at the end of a path. The nodes on the way there forget, also those before a
wrong index. -/
def editAt {Result : Type} (edit : Tree → Except TreeError Result × Tree) :
    List Nat → Tree → Except TreeError Result × Tree
  | [], tree => edit tree
  | index :: path, tree =>
      match tree.children[index]? with
      | none => (.error ⟨index, tree.children.length⟩, tree.forget)
      | some child =>
          let (result, child) := editAt edit path child
          (result, tree.setChildren (tree.children.set index child))

theorem setChildren_children (tree : Tree) (children : List Tree) :
    (tree.setChildren children).children = children := rfl

theorem insertChild_eq_error_iff (tree child : Tree) (index : Nat) (error : TreeError) :
    tree.insertChild index child = .error error ↔
      tree.children.length < index ∧ error = ⟨index, tree.children.length⟩ := by
  unfold insertChild
  by_cases fits : index ≤ tree.children.length
  · have notPast : ¬ tree.children.length < index := Nat.not_lt.mpr fits
    simp [fits, notPast]
  · have past : tree.children.length < index := Nat.lt_of_not_le fits
    simp [fits, past, eq_comm]

end Tree

end TreeScript
