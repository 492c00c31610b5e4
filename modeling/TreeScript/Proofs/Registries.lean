import TreeScript.Proofs.Knowledge
import TreeScript.Proofs.Passes
import TreeScript.Proofs.Termination
/-!
# Registries that agree

What a function does with a number of arguments that its arity refuses can not be observed. Neither
the evaluator nor the optimizer hands it such arguments: both look at the arity first, and constant
arguments are as many as the nodes that they stand for. So two registries whose functions agree on
accepted arguments are the same to every script.
-/

namespace TreeScript

set_option autoImplicit false

/-- The same function as far as accepted arguments go. -/
structure Builtin.Agrees (builtin other : Builtin) : Prop where
  arity : other.arity = builtin.arity
  isPure : other.isPure = builtin.isPure
  staticCheck : other.staticCheck = builtin.staticCheck
  foldWhen : other.foldWhen = builtin.foldWhen
  run : ∀ site arguments, builtin.arity.accepts arguments.length = true →
    other.run site arguments = builtin.run site arguments

/-- The same functions under the same names, with the same documentation. -/
structure Registry.Agrees (registry other : Registry) : Prop where
  catalogue : other.catalogue = registry.catalogue
  functions : ∀ name, Option.Rel Builtin.Agrees (registry.find? name) (other.find? name)

namespace Registry.Agrees

variable {registry other : Registry} (agrees : registry.Agrees other)

include agrees

theorem is_pure (name : String) : other.isPure name = registry.isPure name := by
  have related := agrees.functions name
  unfold Registry.isPure
  generalize registry.find? name = function, other.find? name = function' at related
  cases related with
  | none => rfl
  | some same => exact same.isPure

theorem side_effect_free : Tree.isSideEffectFree other = Tree.isSideEffectFree registry := by
  funext tree
  simp only [Tree.isSideEffectFree, agrees.is_pure]

theorem analyze (name : String) (params : List Tree) (body : Tree) :
    Definition.analyze other name params body = Definition.analyze registry name params body := by
  unfold Definition.analyze
  rw [agrees.side_effect_free]

theorem instantiate (template : Template) (arguments : List Tree) (position : Position) :
    template.instantiate? other arguments position =
      template.instantiate? registry arguments position := by
  unfold Template.instantiate? Template.accepts
  rw [agrees.side_effect_free]

theorem inspect (arguments : List Tree) :
    Template.inspect other arguments = Template.inspect registry arguments := by
  induction arguments with
  | nil => rfl
  | cons argument rest induction =>
      rw [Template.inspect, Template.inspect, induction, agrees.side_effect_free]

section Evaluation

variable (context : Context) (part body : Tree → Run Value)

theorem call_builtin {builtin builtin' : Builtin} (same : builtin.Agrees builtin') (name : String)
    (position : Position) (arguments : List Value) :
    callBuiltin { context with registry := other } builtin' name position arguments =
      callBuiltin { context with registry := registry } builtin name position arguments := by
  funext machine
  cases accepted : builtin.arity.accepts arguments.length with
  | true =>
      have accepted' : builtin'.arity.accepts arguments.length = true := by
        rw [same.arity]
        exact accepted
      rw [call_builtin_accepted accepted, call_builtin_accepted accepted',
        same.run _ _ accepted]
      dsimp only
      rw [agrees.catalogue]
  | false =>
      have refused : builtin'.arity.accepts arguments.length = false := by
        rw [same.arity]
        exact accepted
      rw [call_builtin_refused accepted, call_builtin_refused refused, same.arity]

theorem evaluate_node (tree : Tree) :
    evaluateNode { context with registry := other } part body tree =
      evaluateNode { context with registry := registry } part body tree := by
  rcases tree with ⟨payload, position, optimized, facts, children⟩
  cases payload with
  | literal value => rfl
  | «variable» name => rfl
  | call name =>
      have related := agrees.functions name
      simp only [evaluateNode]
      congr 1
      cases SpecialForm.ofName? name with
      | some form =>
          cases form <;> rfl
      | none =>
          dsimp only
          split
          · rfl
          · generalize registry.find? name = function, other.find? name = function' at related
            cases related with
            | none => rfl
            | some same =>
                dsimp only
                congr 1
                funext arguments
                exact agrees.call_builtin context same name position arguments

end Evaluation

section Optimization

variable (options : OptimizeOptions) (revisit : Option (Tree → Pass Tree))

theorem fold_checked {builtin builtin' : Builtin} (same : builtin.Agrees builtin') (name : String)
    {node : Tree} (accepted : builtin.arity.accepts node.children.length = true) :
    foldChecked ⟨other, options⟩ name builtin' node =
      foldChecked ⟨registry, options⟩ name builtin node := by
  have foldable : builtin'.isFoldable = builtin.isFoldable := by
    funext nodes
    rw [Builtin.isFoldable, Builtin.isFoldable, same.isPure, same.foldWhen]
  by_cases allowed : (options.foldConstants && node.children.all Tree.isConstant &&
      builtin.isFoldable node.children) = true
  · have constant : node.children.all Tree.isConstant = true := by
      simp only [Bool.and_eq_true] at allowed
      exact allowed.1.2
    have counted : builtin.arity.accepts (node.children.filterMap Tree.value?).length = true := by
      rw [values_length constant]
      exact accepted
    have allowed' : (options.foldConstants && node.children.all Tree.isConstant &&
        builtin'.isFoldable node.children) = true := by
      rw [foldable]
      exact allowed
    funext progress
    rw [fold_checked_folds ⟨registry, options⟩ allowed,
      fold_checked_folds ⟨other, options⟩ allowed', same.run _ _ counted]
    dsimp only
    rw [agrees.catalogue]
  · have refused := allowed
    rw [← foldable] at refused
    rw [fold_checked_stays ⟨registry, options⟩ allowed,
      fold_checked_stays ⟨other, options⟩ refused]

theorem fold_found {builtin builtin' : Builtin} {name : String}
    (found : registry.find? name = some builtin) (found' : other.find? name = some builtin')
    (same : builtin.Agrees builtin') (node : Tree) :
    Optimizer.foldCall ⟨other, options⟩ name node =
      Optimizer.foldCall ⟨registry, options⟩ name node := by
  have statically : checkStatically ⟨other, options⟩ name builtin' node =
      checkStatically ⟨registry, options⟩ name builtin node := by
    unfold checkStatically
    rw [same.staticCheck, agrees.catalogue]
  rw [fold_call_eq ⟨registry, options⟩ found, fold_call_eq ⟨other, options⟩ found', statically,
    same.arity]
  cases accepted : builtin.arity.accepts node.children.length with
  | true => rw [agrees.fold_checked options same name accepted]
  | false =>
      have refused : checkArity name builtin.arity node =
          throw (.arityMismatch name builtin.arity node.children.length node.position) := by
        rw [checkArity, accepted]
        rfl
      rw [refused]
      rfl

theorem fold_call (name : String) (node : Tree) :
    Optimizer.foldCall ⟨other, options⟩ name node =
      Optimizer.foldCall ⟨registry, options⟩ name node := by
  have related := agrees.functions name
  cases found : registry.find? name with
  | none =>
      cases found' : other.find? name with
      | none =>
          rw [fold_call_missing ⟨registry, options⟩ found,
            fold_call_missing ⟨other, options⟩ found']
      | some _ =>
          rw [found, found'] at related
          cases related
  | some builtin =>
      cases found' : other.find? name with
      | none =>
          rw [found, found'] at related
          cases related
      | some builtin' =>
          rw [found, found'] at related
          obtain ⟨same⟩ := related
          exact agrees.fold_found options found found' same node

theorem visit_call (name : String) (call : Tree) :
    visitCall ⟨other, options⟩ revisit name call =
      visitCall ⟨registry, options⟩ revisit name call := by
  unfold visitCall
  rw [agrees.fold_call]
  unfold Optimizer.inlineCall
  simp only [agrees.instantiate, agrees.inspect]

theorem record_definition (placement : Placement) (node : Tree) :
    Optimizer.recordDefinition ⟨other, options⟩ placement node =
      Optimizer.recordDefinition ⟨registry, options⟩ placement node := by
  unfold Optimizer.recordDefinition
  simp only [agrees.analyze]

variable {options revisit} {nodes : List Tree}

abbrev VisitsAlike (registry other : Registry) (options : OptimizeOptions)
    (revisit : Option (Tree → Pass Tree)) (node : Tree) : Prop :=
  Optimizer.visit ⟨other, options⟩ revisit node = Optimizer.visit ⟨registry, options⟩ revisit node

omit agrees in
theorem visit_all (alike : ∀ node ∈ nodes, VisitsAlike registry other options revisit node) :
    Optimizer.visitAll ⟨other, options⟩ revisit nodes =
      Optimizer.visitAll ⟨registry, options⟩ revisit nodes := by
  induction nodes with
  | nil => rfl
  | cons node rest induction =>
      rw [List.forall_mem_cons] at alike
      rw [Optimizer.visitAll, Optimizer.visitAll, alike.1, induction alike.2]

omit agrees in
theorem visit_branches : (nodes : List Tree) →
    (∀ node ∈ nodes, VisitsAlike registry other options revisit node) →
    Optimizer.visitBranches ⟨other, options⟩ revisit nodes =
      Optimizer.visitBranches ⟨registry, options⟩ revisit nodes
  | [], _ => rfl
  | [otherwise], alike => by
      rw [Optimizer.visitBranches, Optimizer.visitBranches, alike otherwise List.mem_cons_self]
  | condition :: branch :: rest, alike => by
      rw [List.forall_mem_cons, List.forall_mem_cons] at alike
      rw [Optimizer.visitBranches, Optimizer.visitBranches, alike.1, alike.2.1,
        visit_branches rest alike.2.2]
      rfl

omit agrees in
theorem visit_parts : (nodes : List Tree) →
    (∀ node ∈ nodes, VisitsAlike registry other options revisit node) →
    Optimizer.visitParts ⟨other, options⟩ revisit nodes =
      Optimizer.visitParts ⟨registry, options⟩ revisit nodes
  | [], _ => rfl
  | [body], alike => by
      rw [Optimizer.visitParts, Optimizer.visitParts, alike body List.mem_cons_self]
  | param :: next :: rest, alike => by
      rw [List.forall_mem_cons] at alike
      rw [Optimizer.visitParts, Optimizer.visitParts, alike.1,
        visit_parts (next :: rest) alike.2]

omit agrees in
theorem visit_definition
    (alike : ∀ node ∈ nodes, VisitsAlike registry other options revisit node) :
    Optimizer.visitDefinition ⟨other, options⟩ revisit nodes =
      Optimizer.visitDefinition ⟨registry, options⟩ revisit nodes := by
  cases nodes with
  | nil => rfl
  | cons nameNode rest =>
      rw [List.forall_mem_cons] at alike
      rw [Optimizer.visitDefinition, Optimizer.visitDefinition, visit_parts rest alike.2]

theorem visit_statements
    (alike : ∀ node ∈ nodes, node.Everywhere (VisitsAlike registry other options revisit)) :
    Optimizer.visitStatements ⟨other, options⟩ revisit nodes =
      Optimizer.visitStatements ⟨registry, options⟩ revisit nodes := by
  induction nodes with
  | nil => rfl
  | cons node rest induction =>
      rw [List.forall_mem_cons] at alike
      have here := alike.1.here
      have parts := visit_definition fun child member => (alike.1.inside child member).here
      rcases node with ⟨payload, position, optimized, facts, children⟩
      rw [Optimizer.visitStatements, Optimizer.visitStatements, induction alike.2, here]
      simp only [agrees.record_definition]
      rw [parts]

theorem visit_form {name : String} {position : Position} {facts : Facts} {children : List Tree}
    (form : SpecialForm)
    (alike : ∀ child ∈ children, child.Everywhere (VisitsAlike registry other options revisit)) :
    visitForm ⟨other, options⟩ revisit ⟨.call name, position, false, facts, children⟩ form =
      visitForm ⟨registry, options⟩ revisit ⟨.call name, position, false, facts, children⟩
        form := by
  have below := fun child member => (alike child member).here
  cases form with
  | autoConcat | sequence => simp only [visitForm, agrees.visit_statements alike]
  | conditional | choice => simp only [visitForm, visit_branches children below]
  | procedure => simp only [visitForm, visit_definition below, agrees.record_definition]
  | assignment | closure | returning | execution => simp only [visitForm, visit_all below]

theorem visit (tree : Tree) : tree.Everywhere (VisitsAlike registry other options revisit) := by
  apply Tree.Everywhere.intro
  intro payload position optimized facts children induction
  cases optimized with
  | true => rfl
  | false =>
      cases payload with
      | literal value => rfl
      | «variable» name => rfl
      | call name =>
          unfold VisitsAlike
          cases special : SpecialForm.ofName? name with
          | some form =>
              rw [visit_form_eq _ _ special, visit_form_eq _ _ special,
                agrees.visit_form form induction]
          | none =>
              have arguments := visit_all fun child member => (induction child member).here
              rw [visit_call_eq _ _ special, visit_call_eq _ _ special, arguments]
              simp only [agrees.visit_call]

theorem pass (depth : Nat) :
    Optimizer.pass ⟨other, options⟩ depth = Optimizer.pass ⟨registry, options⟩ depth := by
  induction depth with
  | zero => exact funext fun tree => (agrees.visit tree).here
  | succ depth induction =>
      funext tree
      rw [Optimizer.pass, Optimizer.pass, induction]
      exact (agrees.visit tree).here

/-- Optimizing a script is the same with both registries, errors included. -/
theorem optimize (tree : Tree) :
    Optimizer.optimize ⟨other, options⟩ tree = Optimizer.optimize ⟨registry, options⟩ tree := by
  rw [Optimizer.optimize, Optimizer.optimize, agrees.pass]

end Optimization

end Registry.Agrees

end TreeScript
