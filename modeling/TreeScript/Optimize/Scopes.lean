import TreeScript.Tree.Basic
import TreeScript.Bindings
/-!
# Definitions in force

While an optimizer walks over a script it keeps track of the procedure definitions that are
certain to be in force. They stand in a stack of frames. A sequence has a frame for its direct
definitions, which the statements after them see. The body of a procedure has a frame that hides
all outer ones, because the body runs against the procedures of its caller. A closure has a frame
that lets the outer ones through but keeps its own definitions inside.

A definition anywhere else may or may not take place, so it only hides what its name meant before.
-/

namespace TreeScript

set_option autoImplicit false

inductive FrameKind where
  | sequence
  | procedure
  | closure
deriving DecidableEq, Inhabited

/-- Where a definition stands: directly in the innermost sequence, or anywhere else. -/
inductive Placement where
  | direct
  | nested
deriving DecidableEq, Inhabited

structure Slot where
  name : String
  default : Option Tree

/-- A procedure that a call can be replaced by: its parameters, those of them that every
evaluation of the body reads, and the expression that it returns. -/
structure Template where
  slots : List Slot
  strict : List String
  body : Tree

/-- What is known of a name: the procedure itself, or that it may be any. -/
inductive Definition where
  | inlinable (template : Template)
  | hidden

structure Frame where
  kind : FrameKind
  definitions : Bindings Definition := {}

/-- The frames with the innermost first. The last one is that of the script. -/
abbrev Scopes := List Frame

namespace Frame

def record (frame : Frame) (name : String) (definition : Definition) : Frame :=
  { frame with definitions := frame.definitions.put name definition }

end Frame

namespace Scopes

def initial : Scopes := [{ kind := .procedure }]

def push (kind : FrameKind) (scopes : Scopes) : Scopes := { kind } :: scopes

def pop : Scopes → Scopes
  | _ :: outer :: rest => outer :: rest
  | scopes => scopes

/-- The innermost definition of a name, up to the nearest frame of a procedure. -/
def find? (name : String) : Scopes → Option Definition
  | [] => none
  | frame :: outer =>
      match frame.definitions.find? name with
      | some definition => some definition
      | none => if frame.kind = .procedure then none else find? name outer

/-- Hides a name in the sequences at the top of the stack and in the frame that holds them. -/
def hide (name : String) : Scopes → Scopes
  | [] => []
  | frame :: outer =>
      frame.record name .hidden :: if frame.kind = .sequence then hide name outer else outer

def define (name : String) (definition : Definition) : Placement → Scopes → Scopes
  | .direct, frame :: outer => frame.record name definition :: hide name outer
  | .direct, [] => []
  | .nested, scopes => hide name scopes

end Scopes

namespace Tree

def definition? (tree : Tree) : Option String :=
  if tree.specialForm? = some .procedure then tree.children.head?.bind procedureName? else none

mutual

def definitions : Tree → List String
  | ⟨payload, position, optimized, facts, children⟩ =>
      (Tree.definition? ⟨payload, position, optimized, facts, children⟩).toList ++
        childDefinitions children

def childDefinitions : List Tree → List String
  | [] => []
  | child :: rest => definitions child ++ childDefinitions rest

end

end Tree

namespace Scopes

/-- A subtree that is settled still hides the names that it defines. -/
def shadow (tree : Tree) (scopes : Scopes) : Scopes :=
  tree.definitions.foldl (fun scopes name => hide name scopes) scopes

end Scopes

end TreeScript
