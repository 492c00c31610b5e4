import TreeScript.Optimize.Template
/-!
# Optimization

Simplifies a script before it runs. Calls are checked against the registry; calls of foldable
functions on constants become their results; branches with a constant condition are decided;
sequences inside of sequences are flattened; and calls of simple procedures become the expressions
that those return. A node that comes out is settled and is not visited again.

The pass follows the tree. Only the expression that replaces a call is not part of it; it is visited
in turn, and such replacements are nested no deeper than `maxInlining`.
-/

namespace TreeScript

set_option autoImplicit false

/-- The simplifications that can be left out. Checks are always made. -/
structure OptimizeOptions where
  foldConstants : Bool := true
  eliminateBranches : Bool := true
  inlineProcedures : Bool := true
deriving DecidableEq, Inhabited

structure Optimizer where
  registry : Registry
  options : OptimizeOptions := {}

structure Progress where
  scopes : Scopes
  store : Store

/-- An action of an optimizer. Its changes stay, also when it ends with an error. -/
abbrev Pass := EStateM CompileError Progress

namespace Pass

def modifyScopes (change : Scopes → Scopes) : Pass Unit :=
  modify fun progress => { progress with scopes := change progress.scopes }

/-- Runs an action inside a frame of its own. The frame is gone afterwards, also on an error. -/
def withFrame {Result : Type} (kind : FrameKind) (action : Pass Result) : Pass Result :=
  fun progress =>
    match action { progress with scopes := progress.scopes.push kind } with
    | .ok result after => .ok result { after with scopes := after.scopes.pop }
    | .error error after => .error error { after with scopes := after.scopes.pop }

end Pass

def checkArity (name : String) (arity : Arity) (node : Tree) : Pass Unit :=
  if arity.accepts node.children.length then return
  else throw (.arityMismatch name arity node.children.length node.position)

/-- The name of a definition becomes a settled string. -/
def normalizeName (node : Tree) : Pass Tree :=
  match node.procedureName?.filter Tree.isProcedureName with
  | some name => return (Tree.literal (.string name) node.position).settle true
  | none => throw (.malformed (.procedureName node.text) node.position)

def checkParameter (node : Tree) : Pass Unit :=
  if node.parameter?.isSome then return
  else throw (.malformed (.parameter node.text) node.position)

def checkAssignment (children : List Tree) : Pass Unit :=
  match children with
  | ⟨.variable _, _, _, _, _⟩ :: _ => return
  | first :: _ => throw (.malformed (.assignment first.text) first.position)
  | [] => return

def splice (statement : Tree) : List Tree :=
  if statement.specialForm?.any SpecialForm.isSequence then statement.children else [statement]

def isVoidLiteral (statement : Tree) : Bool := statement.value?.any Value.isVoid

/-- A statement that is only a void matters as the last one, as the value of the sequence. -/
def dropVoids : List Tree → List Tree
  | [] => []
  | [last] => [last]
  | statement :: next :: rest =>
      if isVoidLiteral statement then dropVoids (next :: rest)
      else statement :: dropVoids (next :: rest)

/-- One statement needs no sequence around it. -/
def collapse (position : Position) : List Tree → Tree
  | [] => .void position
  | [statement] => statement
  | statements => .call SpecialForm.sequence.name statements position

/-- What is left of a conditional. Without a condition, the branch stands alone or is missing. -/
def resolve (node : Tree) : List Tree → Tree
  | [] => .void node.position
  | [branch] => branch
  | children => node.setChildren children

/-- What a visitor makes of a whole script, in which nothing is defined at first. -/
def runVisit (visitor : Tree → Pass Tree) (tree : Tree) : EStateM CompileError Store Tree :=
  fun store =>
    match visitor tree ⟨Scopes.initial, store⟩ with
    | .ok result after => .ok result after.store
    | .error error after => .error error after.store

namespace Optimizer

def decide? (optimizer : Optimizer) (condition : Tree) : Option Bool :=
  if optimizer.options.eliminateBranches then condition.value?.map Value.isTruthy else none

def foldCall (optimizer : Optimizer) (name : String) (node : Tree) : Pass Tree := do
  let some builtin := optimizer.registry.find? name
    | throw (.unknownFunction name node.position)
  checkArity name builtin.arity node
  let catalogue := optimizer.registry.catalogue
  if let some check := builtin.staticCheck then
    if let .error fault := check node.children catalogue then
      throw (.invalidArgument name fault node.position)
  if optimizer.options.foldConstants && node.children.all Tree.isConstant &&
      builtin.isFoldable node.children then
    fun progress =>
      let site := ⟨node.position, none, catalogue⟩
      match builtin.run site (node.children.filterMap Tree.value?) progress.store with
      | .ok value store => .ok (Tree.literal value node.position) { progress with store }
      | .error fault store =>
          .error (.foldFailed name fault node.position) { progress with store }
  else return node

def inlineCall (optimizer : Optimizer) (revisit : Option (Tree → Pass Tree)) (name : String)
    (node : Tree) : Pass Tree := do
  match optimizer.options.inlineProcedures, (← get).scopes.find? name, revisit with
  | true, some (.inlinable template), some revisit =>
      match template.instantiate? optimizer.registry node.children node.position with
      | some expression => revisit expression
      | none =>
          if node.children.length ≤ template.slots.length then
            return { node with children := Template.inspect optimizer.registry node.children }
          else return node
  | _, _, _ => return node

def recordDefinition (optimizer : Optimizer) (placement : Placement) (node : Tree) :
    Pass Tree := do
  match node.children with
  | nameNode :: rest =>
      match nameNode.procedureName? with
      | none => return node
      | some name =>
          match rest.getLast? with
          | none => do
              Pass.modifyScopes (·.define name .hidden placement)
              return node
          | some body => do
              let params := rest.dropLast
              let (definition, body) := Definition.analyze optimizer.registry name params body
              Pass.modifyScopes (·.define name definition placement)
              return { node with children := nameNode :: params ++ [body] }
  | [] => return node

mutual

def visit (optimizer : Optimizer) (revisit : Option (Tree → Pass Tree)) : Tree → Pass Tree
  | ⟨payload, position, optimized, facts, children⟩ => do
      let node : Tree := ⟨payload, position, optimized, facts, children⟩
      if optimized then
        Pass.modifyScopes (·.shadow node)
        return node
      else
        match payload with
        | .call name =>
            match SpecialForm.ofName? name with
            | some form => do
                checkArity form.name form.arity node
                let out ←
                  match form with
                  | .autoConcat | .sequence => do
                      let statements ←
                        Pass.withFrame .sequence (optimizer.visitStatements revisit children)
                      pure (collapse position (dropVoids statements))
                  | .conditional | .choice => do
                      pure (resolve node (← optimizer.visitBranches revisit children))
                  | .procedure => do
                      let parts ← optimizer.visitDefinition revisit children
                      optimizer.recordDefinition .nested ((node.setChildren parts).settle true)
                  | .assignment => do
                      checkAssignment children
                      pure (node.setChildren (← optimizer.visitAll revisit children))
                  | .closure => do
                      pure (node.setChildren
                        (← Pass.withFrame .closure (optimizer.visitAll revisit children)))
                  | .returning | .execution => do
                      pure (node.setChildren (← optimizer.visitAll revisit children))
                return out.settle true
            | none => do
                let visited ← optimizer.visitAll revisit children
                let call := node.setChildren visited
                let out ←
                  if Tree.isProcedureName name then optimizer.inlineCall revisit name call
                  else optimizer.foldCall name call
                return out.settle true
        | _ => return node.settle true

def visitAll (optimizer : Optimizer) (revisit : Option (Tree → Pass Tree)) :
    List Tree → Pass (List Tree)
  | [] => return []
  | node :: rest => do
      let visited ← optimizer.visit revisit node
      return visited :: (← optimizer.visitAll revisit rest)

/-- The statements of one sequence, flattened. A direct definition is in force after it. -/
def visitStatements (optimizer : Optimizer) (revisit : Option (Tree → Pass Tree)) :
    List Tree → Pass (List Tree)
  | [] => return []
  | ⟨payload, position, optimized, facts, children⟩ :: rest => do
      let node : Tree := ⟨payload, position, optimized, facts, children⟩
      let visited ←
        if node.specialForm? = some .procedure then
          if optimized then optimizer.recordDefinition .direct node
          else
            checkArity SpecialForm.procedure.name SpecialForm.procedure.arity node
            let parts ← optimizer.visitDefinition revisit children
            optimizer.recordDefinition .direct ((node.setChildren parts).settle true)
        else optimizer.visit revisit node
      return splice visited ++ (← optimizer.visitStatements revisit rest)

/-- What is left of conditions and branches: pairs with an open condition, then perhaps a branch
without one. Branches that are not taken are not visited. -/
def visitBranches (optimizer : Optimizer) (revisit : Option (Tree → Pass Tree)) :
    List Tree → Pass (List Tree)
  | [] => return []
  | [otherwise] => return [← optimizer.visit revisit otherwise]
  | condition :: branch :: rest => do
      let settled ← optimizer.visit revisit condition
      match optimizer.decide? settled with
      | some true => return [← optimizer.visit revisit branch]
      | some false => optimizer.visitBranches revisit rest
      | none => do
          let taken ← optimizer.visit revisit branch
          return settled :: taken :: (← optimizer.visitBranches revisit rest)

def visitDefinition (optimizer : Optimizer) (revisit : Option (Tree → Pass Tree)) :
    List Tree → Pass (List Tree)
  | [] => return []
  | nameNode :: rest => do
      let name ← normalizeName nameNode
      return name :: (← optimizer.visitParts revisit rest)

/-- Defaults are visited where the definition stands, and the body in a frame of its own. -/
def visitParts (optimizer : Optimizer) (revisit : Option (Tree → Pass Tree)) :
    List Tree → Pass (List Tree)
  | [] => return []
  | [body] => return [← Pass.withFrame .procedure (optimizer.visit revisit body)]
  | param :: next :: rest => do
      checkParameter param
      let visited ← optimizer.visit revisit param
      return visited :: (← optimizer.visitParts revisit (next :: rest))

end

/-- Visits a tree, with replacements inside of replacements up to the given depth. -/
def pass (optimizer : Optimizer) : Nat → Tree → Pass Tree
  | 0 => optimizer.visit none
  | depth + 1 => optimizer.visit (some (optimizer.pass depth))

/-- A replacement calls for no further one unless a pure function is named like a procedure. -/
def maxInlining : Nat := 1000

def optimize (optimizer : Optimizer) : Tree → EStateM CompileError Store Tree :=
  runVisit (optimizer.pass maxInlining)

end Optimizer

end TreeScript
