import Mathlib.Data.List.Forall2
import TreeScript.Proofs.Quiet
/-!
# Calls and the expressions that replace them

A call evaluates its arguments, binds them in a scope of its own and runs the body there. The
expression that replaces the call reads the argument trees where the body reads its parameters.
Both come to the same value as long as the binding of a parameter is what a reader of the parameter
finds: it must not be hidden by the array of all arguments, and a default must be its own copy.
-/

namespace TreeScript

set_option autoImplicit false

namespace Value

theorem copy_of_no_resource {value : Value} (plain : value.holdsResource = false) (fresh : Nat) :
    value.copy fresh = .ok value fresh := by
  cases value with
  | array items =>
      have none : anyHoldsResource items = false := plain
      simp [copy, none, pure_apply]
  | resource handle => cases plain
  | _ => rfl

end Value

/-- A parameter of a procedure and the slot of a template that stands for it. -/
structure Param.Matches (param : Param) (slot : Slot) : Prop where
  name : param.name = slot.name
  default : ∀ default, slot.default = some default → default.value? = some param.default

/-- A copy of the default is the default itself. -/
def Slot.HoldsNoResource (slot : Slot) : Prop :=
  ∀ default value, slot.default = some default → default.value? = some value →
    value.holdsResource = false

namespace Environment

def Realizes (registry : Registry) (read : Tree.Reading) (scope : Environment)
    (bindings : Bindings Tree) : Prop :=
  ∀ name tree, bindings.find? name = some tree →
    ∃ value, scope.get? name = some value ∧ tree.denote registry read = .ok value

variable {registry : Registry} {read : Tree.Reading} {scope : Environment}
  {bindings : Bindings Tree}

theorem get_set (scope : Environment) (name other : String) (value : Value) :
    (scope.set name value).get? other = if other = name then some value else scope.get? other :=
  Bindings.find?_put scope.vars name other value

theorem Realizes.put {name : String} {tree : Tree} {value : Value}
    (realizes : scope.Realizes registry read bindings)
    (denotes : tree.denote registry read = .ok value) :
    (scope.set name value).Realizes registry read (bindings.put name tree) := by
  intro other found bound
  rw [Bindings.find?_put] at bound
  rw [get_set]
  by_cases same : other = name
  · rw [if_pos same] at bound ⊢
    cases bound
    exact ⟨value, rfl, denotes⟩
  · rw [if_neg same] at bound ⊢
    exact realizes other found bound

/-- Binding values to parameters and trees to slots goes in step, and takes no new identities
if no default in use holds a resource. -/
theorem bind_params_realizes {params : List Param} {slots : List Slot}
    (aligned : List.Forall₂ Param.Matches params slots) {arguments : List Tree}
    {values : List Value}
    (denotes : List.Forall₂ (fun tree value => tree.denote registry read = .ok value)
      arguments values)
    (plain : ∀ slot ∈ slots.drop arguments.length, slot.HoldsNoResource)
    (realizes : scope.Realizes registry read bindings) {bindings' : Bindings Tree}
    (bound : Template.bind? slots arguments bindings = some bindings') (fresh : Nat) :
    ∃ scope', bindParams params values scope fresh = .ok scope' fresh ∧
      scope'.Realizes registry read bindings' ∧ scope'.procedures = scope.procedures := by
  induction aligned generalizing arguments values scope bindings with
  | nil =>
      simp only [Template.bind?, Option.some.injEq] at bound
      subst bound
      refine ⟨scope, ?_, realizes, rfl⟩
      simp only [bindParams]
      rfl
  | @cons param slot params slots first rest induction =>
      cases denotes with
      | nil =>
          simp only [Template.bind?, Option.bind_eq_bind, Option.bind_eq_some_iff] at bound
          rcases bound with ⟨default, found, bound⟩
          have constant := first.default default found
          have denoted : default.denote registry read = .ok param.default := by
            rcases default with ⟨payload, position, optimized, facts, children⟩
            cases payload <;> simp_all [Tree.value?, Payload.value?, Tree.denote]
          have copied := Value.copy_of_no_resource
            (plain slot (by simp) default param.default found constant) fresh
          have realizes' : (scope.set slot.name param.default).Realizes registry read
              (bindings.put slot.name default) := realizes.put denoted
          rcases induction .nil (fun slot member => plain slot (by simp_all)) realizes' bound
            with ⟨scope', done, final, procedures⟩
          refine ⟨scope', ?_, final, procedures⟩
          simp only [bindParams, bind_apply, copied, first.name]
          exact done
      | @cons argument value arguments values denoted others =>
          have realizes' : (scope.set slot.name value).Realizes registry read
              (bindings.put slot.name argument) := realizes.put denoted
          simp only [Template.bind?] at bound
          rcases induction others (fun slot member => plain slot (by simpa using member))
            realizes' bound with ⟨scope', done, final, procedures⟩
          refine ⟨scope', ?_, final, procedures⟩
          simp only [bindParams, first.name]
          exact done

end Environment

namespace Tree

theorem payloads_remember (kind : FactKind) (tree : Tree) :
    (tree.remember kind).payloads = tree.payloads := by
  rcases tree with ⟨payload, position, optimized, facts, children⟩
  unfold remember ask
  split <;> rfl

theorem variable_names_remember (kind : FactKind) (tree : Tree) :
    (tree.remember kind).variableNames = tree.variableNames := by
  rw [variableNames, names, payloads_remember]
  rfl

theorem returned_eq_some {body expression : Tree} (returned : body.returned? = some expression) :
    body.payload = .call SpecialForm.returning.name ∧ body.children = [expression] := by
  unfold returned? at returned
  split at returned
  · rename_i special
    refine ⟨payload_of_specialForm special, ?_⟩
    split at returned
    · rename_i only children
      rw [children, Option.some.inj returned]
    · cases returned
  · cases returned

theorem parameter_assigned {written : String} (position : Position) (optimized : Bool)
    (facts : Facts) {target : Tree} (expression : Tree) (rest : List Tree)
    (named : target.payload = .variable written) :
    parameter? ⟨.call SpecialForm.assignment.name, position, optimized, facts,
      target :: expression :: rest⟩ = some (written, some expression) := by
  rcases target with ⟨payload, _, _, _, _⟩
  subst named
  unfold parameter?
  exact if_pos (SpecialForm.ofName?_name .assignment)

/-- The two shapes of a well-formed parameter. -/
theorem parameter_eq_some {node : Tree} {name : String} {default : Option Tree}
    (shape : node.parameter? = some (name, default)) :
    (∃ position optimized facts children,
        node = ⟨.variable name, position, optimized, facts, children⟩ ∧ default = none) ∨
      ∃ position optimized facts target expression rest,
        node = ⟨.call SpecialForm.assignment.name, position, optimized, facts,
          target :: expression :: rest⟩ ∧ target.payload = .variable name ∧
          default = some expression := by
  rcases node with ⟨payload, position, optimized, facts, children⟩
  unfold parameter? at shape
  cases payload with
  | literal value => cases shape
  | «variable» written =>
      cases shape
      exact Or.inl ⟨_, _, _, _, rfl, rfl⟩
  | call called =>
      simp only at shape
      split at shape
      · rename_i special
        have named : SpecialForm.assignment.name = called :=
          (SpecialForm.ofName?_eq_some_iff called .assignment).mp special
        subst named
        split at shape
        · cases shape
          exact Or.inr ⟨_, _, _, _, _, _, rfl, rfl, rfl⟩
        · cases shape
      · cases shape

end Tree

/-- The template stands for a definition with these parameters that returns the expression. -/
structure Template.Describes (registry : Registry) (template : Template) (params : List Tree)
    (expression : Tree) : Prop where
  slots : params.mapM Slot.ofNode? = some template.slots
  strict : template.strict = expression.certainReads
  body : template.body = expression.freshCopy
  closed : ∀ name ∈ expression.variableNames, ∃ slot ∈ template.slots, slot.name = name
  quiet : expression.isSideEffectFree registry = true

theorem analyze_inlinable {registry : Registry} {name : String} {params : List Tree}
    {body : Tree} {template : Template}
    (analyzed : (Definition.analyze registry name params body).1 = .inlinable template) :
    ∃ expression, body.returned? = some expression ∧
      template.Describes registry params expression := by
  unfold Definition.analyze at analyzed
  cases returned : body.returned? with
  | none => simp [returned] at analyzed
  | some expression =>
      refine ⟨expression, rfl, ?_⟩
      simp only [returned] at analyzed
      split at analyzed
      · cases analyzed
      · cases slots : params.mapM Slot.ofNode? with
        | none => simp [slots] at analyzed
        | some slots =>
            simp only [slots] at analyzed
            split at analyzed
            · rename_i closed
              split at analyzed
              · rename_i quiet
                cases analyzed
                rw [Tree.variable_names_remember] at closed
                refine ⟨slots, rfl, rfl, ?_, quiet⟩
                intro read member
                have known := List.all_eq_true.mp closed read member
                simpa using known
              · cases analyzed
            · cases analyzed

/-- What an analysis leaves of a body. Facts are noted on it, and perhaps on what it returns. -/
theorem analyzed_body (registry : Registry) (name : String) (params : List Tree) (body : Tree) :
    (Definition.analyze registry name params body).2 = body ∨
    (Definition.analyze registry name params body).2 = body.remember .functionNames ∨
    ∃ expression expression', body.returned? = some expression ∧
      (expression' = expression.remember .variableNames ∨
        expression' = (expression.remember .variableNames).remember .functionNames) ∧
      (Definition.analyze registry name params body).2 =
        { body.remember .functionNames with children := [expression'] } := by
  unfold Definition.analyze
  cases returned : body.returned? with
  | none => exact Or.inl rfl
  | some expression =>
      dsimp only
      split
      · exact Or.inr (Or.inl rfl)
      · split
        · exact Or.inr (Or.inl rfl)
        · split
          · split
            · exact Or.inr (Or.inr ⟨expression, _, rfl, Or.inr rfl, rfl⟩)
            · exact Or.inr (Or.inr ⟨expression, _, rfl, Or.inr rfl, rfl⟩)
          · exact Or.inr (Or.inr ⟨expression, _, rfl, Or.inl rfl, rfl⟩)

theorem analyzed_body_keeps {holds : Tree → Prop} {registry : Registry} {name : String}
    {params : List Tree} {body : Tree} (given : holds body)
    (remember : ∀ kind tree, holds tree → holds (tree.remember kind))
    (returned : ∀ expression, body.returned? = some expression → holds expression ∧
      ∀ expression' facts, holds expression' →
        holds { body with facts := facts, children := [expression'] }) :
    holds (Definition.analyze registry name params body).2 := by
  obtain same | same | ⟨expression, expression', found, noted, same⟩ :=
    analyzed_body registry name params body
  · rw [same]
    exact given
  · rw [same]
    exact remember _ _ given
  · obtain ⟨below, rebuilt⟩ := returned expression found
    have kept : holds expression' := by
      obtain rfl | rfl := noted
      · exact remember _ _ below
      · exact remember _ _ (remember _ _ below)
    rw [same]
    unfold Tree.remember Tree.ask
    split
    · exact rebuilt expression' body.facts kept
    · exact rebuilt expression' _ kept

section Parameters

variable {context : Context} {run : Tree → Run Value} {before after : Machine}

theorem evaluate_param_matches {node : Tree} {slot : Slot} {param : Param}
    (analyzed : Slot.ofNode? node = some slot)
    (made : evaluateParam context run node before = .ok param after) : param.Matches slot := by
  unfold Slot.ofNode? at analyzed
  cases shape : node.parameter? with
  | none => simp [shape] at analyzed
  | some parameter =>
      rcases parameter with ⟨name, default⟩
      rcases Tree.parameter_eq_some shape with ⟨position, optimized, facts, children, rfl, rfl⟩ |
        ⟨position, optimized, facts, target, expression, rest, rfl, named, rfl⟩
      · simp only [shape, Option.some.injEq] at analyzed
        subst analyzed
        simp only [evaluateParam] at made
        cases made
        exact ⟨rfl, fun default none => by cases none⟩
      · simp only [shape] at analyzed
        split at analyzed
        · rename_i constant
          cases analyzed
          rcases target with ⟨payload, position', optimized', facts', children'⟩
          subst named
          rw [evaluate_param_assigned] at made
          rcases bind_eq_ok made with ⟨value, between, evaluated, created⟩
          cases created
          refine ⟨rfl, fun found same => ?_⟩
          cases same
          rcases expression with ⟨payload, position'', optimized'', facts'', children''⟩
          cases payload with
          | literal constantValue =>
              rw [(evaluate_literal_ok _ _ _ _ _ _ evaluated).1]
              rfl
          | _ => cases constant
        · cases analyzed

theorem evaluate_params_match {params : List Tree} {slots : List Slot} {made : List Param}
    (body : Tree) (analyzed : params.mapM Slot.ofNode? = some slots)
    (done : evaluateParams context run (params ++ [body]) before = .ok made after) :
    List.Forall₂ Param.Matches made slots := by
  induction params generalizing before slots made with
  | nil =>
      simp only [List.mapM_nil, pure, Option.some.injEq] at analyzed
      subst analyzed
      simp only [List.nil_append, evaluateParams] at done
      cases done
      exact .nil
  | cons param rest induction =>
      simp only [List.mapM_cons, Option.bind_eq_bind, Option.bind_eq_some_iff] at analyzed
      rcases analyzed with ⟨slot, first, slots', others, built⟩
      simp only [pure, Option.some.injEq] at built
      subst built
      have apart : ∃ next later, rest ++ [body] = next :: later := by
        cases rest with
        | nil => exact ⟨body, [], rfl⟩
        | cons next later => exact ⟨next, later ++ [body], rfl⟩
      rcases apart with ⟨next, later, split⟩
      rw [List.cons_append, split] at done
      simp only [evaluateParams] at done
      rw [← split] at done
      rcases bind_eq_ok done with ⟨firstParam, between, evaluated, done⟩
      rcases bind_eq_ok done with ⟨otherParams, last, evaluatedRest, created⟩
      cases created
      exact .cons (evaluate_param_matches first evaluated) (induction others evaluatedRest)

end Parameters

/-- Entering a body whose parameters can be bound without new identities. -/
theorem invoke_bound {context : Context} {run : Tree → Run Value} {params : List Param}
    {body : Tree} {values : List Value} {scope scope' : Environment} {machine : Machine}
    (bound : Environment.bindParams params values { scope with depth := scope.depth + 1 }
      machine.store.resources = .ok scope' machine.store.resources) :
    invoke context run params body values scope machine =
      if context.maxDepth ≤ scope.depth then
        .error (.stackOverflow (scope.depth + 1) context.maxDepth) machine
      else runBody run (scope'.set argumentsVariable (.array values)) body machine := by
  unfold invoke
  rw [bind_apply]
  by_cases deep : context.maxDepth ≤ scope.depth
  · simp [Environment.enterCall, deep, Run.ofExcept]
  · have entered : scope.enterCall context.maxDepth =
        .ok { scope with depth := scope.depth + 1 } := by
      simp [Environment.enterCall, deep]
    have copied : Run.copying (Store.copying
        (Environment.bindArguments params values { scope with depth := scope.depth + 1 })) machine =
        .ok (scope'.set argumentsVariable (.array values)) machine := by
      simp only [Run.copying, Store.copying, Environment.bindArguments, bind_apply, bound,
        pure_apply]
    rw [if_neg deep, entered]
    simp only [Run.ofExcept, bind_apply, copied]

/-- The procedure is what an evaluation of the definition has made. -/
def Procedure.CreatedBy (context : Context) (procedure : Procedure) (definition : Tree) : Prop :=
  definition.definition? = some procedure.name ∧
    ∃ run before value after, evaluate context run definition before = .ok value after ∧
      after.env.procedure? procedure.name = some procedure

theorem Procedure.CreatedBy.parts {context : Context} {procedure : Procedure} {position : Position}
    {optimized : Bool} {facts : Facts} {nameNode : Tree} {rest : List Tree}
    (created : procedure.CreatedBy context
      ⟨.call SpecialForm.procedure.name, position, optimized, facts, nameNode :: rest⟩) :
    procedure.body = bodyOf rest ∧
      ∃ run before between,
        evaluateParams context run rest before = .ok procedure.params between := by
  rcases created with ⟨named, run, before, value, after, evaluated, defined⟩
  have special : SpecialForm.ofName? SpecialForm.procedure.name = some .procedure := rfl
  have accepted : SpecialForm.procedure.arity.accepts (nameNode :: rest).length = true := by
    simp [SpecialForm.arity]
  rw [evaluate_form _ _ _ _ _ _ special accepted] at evaluated
  rcases evaluate_definition_ok _ _ _ (unless_interrupted_ok evaluated).2 with
    ⟨name, params, between, found, made, -, rfl⟩
  have same : procedure.name = name := by
    rcases Option.filter_eq_some_iff.mp found with ⟨given, -⟩
    have asked : nameNode.procedureName? = some procedure.name := named
    rw [given] at asked
    exact (Option.some.inj asked).symm
  have bound : some (⟨name, params, bodyOf rest, position⟩ : Procedure) = some procedure := by
    rw [← defined]
    unfold Environment.procedure? Environment.define
    rw [Bindings.find?_put, if_pos same]
  rw [← Option.some.inj bound]
  exact ⟨rfl, run, before, between, made⟩

section Replacement

variable {context : Context} {machine : Machine}

theorem reading_ordinary (env : Environment) : Tree.Reading.Ordinary env.read := by
  intro name position error failed
  unfold Environment.read at failed
  split at failed
  · cases failed
  · cases failed
    rfl

theorem reading_ignores_position (env : Environment) :
    Tree.Reading.IgnoresPosition env.read := by
  intro name position position' value read
  unfold Environment.read at read ⊢
  split at read
  · exact read
  · cases read

def returning (registry : Registry) (expression : Tree) : Run Value := fun machine =>
  match expression.denote registry machine.env.read with
  | .ok value => .error (.returned value) machine
  | .error error => .error error machine

theorem evaluate_returning (run : Tree → Run Value) (faithful : context.registry.ComputesPurely)
    (clear : machine.store.interrupted = false) {body expression : Tree}
    (returned : body.returned? = some expression) (quiet : expression.Quiet context.registry) :
    evaluate context run body machine = returning context.registry expression machine := by
  rcases Tree.returned_eq_some returned with ⟨named, only⟩
  rcases body with ⟨payload, position, optimized, facts, children⟩
  simp only at named only
  subst named only
  have special := SpecialForm.ofName?_name .returning
  have accepted : SpecialForm.returning.arity.accepts [expression].length = true := by
    simp [SpecialForm.arity]
  have denotes : Denotes context run machine expression := evaluate_quiet faithful clear quiet
  unfold Denotes at denotes
  rw [evaluate_form _ _ _ _ _ _ special accepted, unless_interrupted_clear _ clear]
  simp only [evaluateForm]
  rw [evaluate_sequence_single, bind_apply, denotes]
  unfold returning
  cases expression.denote context.registry machine.env.read <;> rfl

theorem run_body_of_returning {run : Tree → Run Value} {scope : Environment}
    {body expression : Tree}
    (returns : run body ⟨scope, machine.store⟩ =
      returning context.registry expression ⟨scope, machine.store⟩) :
    runBody run scope body machine =
      Run.ofExcept (expression.denote context.registry scope.read) machine := by
  unfold runBody
  rw [returns]
  unfold returning
  cases result : expression.denote context.registry scope.read with
  | ok value => rfl
  | error error =>
      have ordinary := Tree.denote_error_ordinary (reading_ordinary scope) expression result
      cases error <;> first | rfl | cases ordinary

theorem run_body_returning (faithful : context.registry.ComputesPurely)
    (clear : machine.store.interrupted = false) {body expression : Tree}
    (returned : body.returned? = some expression) (quiet : expression.Quiet context.registry)
    (calls : Nat) (scope : Environment) :
    runBody (bodyRunner context (calls + 1)) scope body machine =
      Run.ofExcept (expression.denote context.registry scope.read) machine := by
  apply run_body_of_returning
  have inside : (⟨scope, machine.store⟩ : Machine).store.interrupted = false := clear
  exact evaluate_returning (bodyRunner context calls) faithful inside returned quiet

theorem denote_realized {registry : Registry} {read : Tree.Reading} {scope : Environment}
    {bindings : Bindings Tree} (realizes : scope.Realizes registry read bindings)
    {expression : Tree}
    (closed : ∀ name ∈ expression.variableNames, bindings.contains name = true) :
    expression.denote registry (Tree.substituted registry read bindings) =
      expression.denote registry scope.read := by
  apply Tree.denote_congr
  intro name member position
  rcases Option.isSome_iff_exists.mp (closed name member) with ⟨tree, found⟩
  rcases realizes name tree found with ⟨value, bound, denotes⟩
  simp only [Tree.substituted, found, denotes, Environment.read, bound]

end Replacement

section Slots

variable {slots : List Slot} {arguments : List Tree} {bindings bindings' : Bindings Tree}

theorem contains_put (bindings : Bindings Tree) (name other : String) (tree : Tree) :
    (bindings.put name tree).contains other =
      (decide (other = name) || bindings.contains other) := by
  unfold Bindings.contains
  rw [Bindings.find?_put]
  by_cases same : other = name <;> simp [same]

theorem bind_slots_keeps (bound : Template.bind? slots arguments bindings = some bindings')
    {name : String} (before : bindings.contains name = true) :
    bindings'.contains name = true := by
  induction slots generalizing arguments bindings with
  | nil =>
      simp only [Template.bind?, Option.some.injEq] at bound
      rw [← bound]
      exact before
  | cons slot slots induction =>
      cases arguments with
      | cons argument arguments =>
          apply induction bound
          rw [contains_put, before, Bool.or_true]
      | nil =>
          simp only [Template.bind?, Option.bind_eq_bind, Option.bind_eq_some_iff] at bound
          rcases bound with ⟨default, -, bound⟩
          apply induction bound
          rw [contains_put, before, Bool.or_true]

/-- Every slot is bound, by its argument or by its default. -/
theorem bind_slots_covers (bound : Template.bind? slots arguments bindings = some bindings')
    {slot : Slot} (member : slot ∈ slots) : bindings'.contains slot.name = true := by
  induction slots generalizing arguments bindings with
  | nil => cases member
  | cons first slots induction =>
      cases arguments with
      | cons argument arguments =>
          rcases List.mem_cons.mp member with rfl | later
          · simp only [Template.bind?] at bound
            apply bind_slots_keeps bound
            simp [contains_put]
          · exact induction bound later
      | nil =>
          simp only [Template.bind?, Option.bind_eq_bind, Option.bind_eq_some_iff] at bound
          rcases bound with ⟨default, -, bound⟩
          rcases List.mem_cons.mp member with rfl | later
          · apply bind_slots_keeps bound
            simp [contains_put]
          · exact induction bound later

theorem bind_slots_outside (bound : Template.bind? slots arguments bindings = some bindings')
    {name : String} (outside : name ∉ slots.map Slot.name) :
    bindings'.find? name = bindings.find? name := by
  induction slots generalizing arguments bindings with
  | nil =>
      simp only [Template.bind?, Option.some.injEq] at bound
      rw [bound]
  | cons slot slots induction =>
      simp only [List.map_cons, List.mem_cons, not_or] at outside
      cases arguments with
      | cons argument arguments =>
          rw [induction bound outside.2, Bindings.find?_put, if_neg outside.1]
      | nil =>
          simp only [Template.bind?, Option.bind_eq_bind, Option.bind_eq_some_iff] at bound
          rcases bound with ⟨default, -, bound⟩
          rw [induction bound outside.2, Bindings.find?_put, if_neg outside.1]

/-- A slot is bound to the argument in its place, unless a later slot has its name. -/
theorem bind_slots_argument (bound : Template.bind? slots arguments bindings = some bindings')
    {index : Nat} {argument : Tree} {slot : Slot} (given : arguments[index]? = some argument)
    (placed : slots[index]? = some slot)
    (last : slot.name ∉ (slots.drop (index + 1)).map Slot.name) :
    bindings'.find? slot.name = some argument := by
  induction slots generalizing arguments bindings index with
  | nil => simp at placed
  | cons first slots induction =>
      cases arguments with
      | nil => simp at given
      | cons other arguments =>
          simp only [Template.bind?] at bound
          cases index with
          | zero =>
              simp only [List.getElem?_cons_zero, Option.some.injEq] at given placed
              subst given placed
              simp only [Nat.zero_add, List.drop_succ_cons, List.drop_zero] at last
              rw [bind_slots_outside bound last, Bindings.find?_put, if_pos rfl]
          | succ index =>
              simp only [List.getElem?_cons_succ] at given placed
              simp only [List.drop_succ_cons] at last
              exact induction bound given placed last

theorem bind_slots_holds {holds : Tree → Prop}
    (bound : Template.bind? slots arguments bindings = some bindings')
    (before : ∀ name tree, bindings.find? name = some tree → holds tree)
    (given : ∀ argument ∈ arguments, holds argument)
    (defaults : ∀ slot ∈ slots, ∀ default, slot.default = some default → holds default)
    {name : String} {tree : Tree} (found : bindings'.find? name = some tree) : holds tree := by
  have put : ∀ (bindings : Bindings Tree) (other : String) (item : Tree), holds item →
      (∀ name tree, bindings.find? name = some tree → holds tree) →
      ∀ name tree, (bindings.put other item).find? name = some tree → holds tree := by
    intro bindings other item new old name tree found
    rw [Bindings.find?_put] at found
    split at found
    · cases found
      exact new
    · exact old name tree found
  induction slots generalizing arguments bindings with
  | nil =>
      simp only [Template.bind?, Option.some.injEq] at bound
      subst bound
      exact before name tree found
  | cons slot slots induction =>
      cases arguments with
      | cons argument arguments =>
          apply induction bound
          · exact put bindings slot.name argument (given argument (by simp)) before
          · exact fun later member => given later (by simp [member])
          · exact fun later member => defaults later (by simp [member])
      | nil =>
          simp only [Template.bind?, Option.bind_eq_bind, Option.bind_eq_some_iff] at bound
          rcases bound with ⟨default, chosen, bound⟩
          apply induction bound
          · exact put bindings slot.name default (defaults slot (by simp) default chosen) before
          · exact given
          · exact fun later member => defaults later (by simp [member])

end Slots

theorem slot_default_literal {node default : Tree} {slot : Slot}
    (analyzed : Slot.ofNode? node = some slot) (given : slot.default = some default) :
    ∃ value, default.payload = .literal value := by
  unfold Slot.ofNode? at analyzed
  split at analyzed
  · cases analyzed
    cases given
  · split at analyzed
    · rename_i constant
      cases analyzed
      cases given
      rcases default with ⟨payload, position, optimized, facts, children⟩
      cases payload with
      | literal value => exact ⟨value, rfl⟩
      | _ => cases constant
    · cases analyzed
  · cases analyzed

theorem slot_of_node {params : List Tree} {slots : List Slot} {slot : Slot}
    (analyzed : params.mapM Slot.ofNode? = some slots) (member : slot ∈ slots) :
    ∃ node ∈ params, Slot.ofNode? node = some slot := by
  induction params generalizing slots with
  | nil =>
      simp only [List.mapM_nil, pure, Option.some.injEq] at analyzed
      subst analyzed
      cases member
  | cons param rest induction =>
      simp only [List.mapM_cons, Option.bind_eq_bind, Option.bind_eq_some_iff] at analyzed
      rcases analyzed with ⟨first, found, slots', others, built⟩
      simp only [pure, Option.some.injEq] at built
      subst built
      rcases List.mem_cons.mp member with rfl | later
      · exact ⟨param, by simp, found⟩
      · rcases induction others later with ⟨node, within, same⟩
        exact ⟨node, by simp [within], same⟩

section Calls

variable {context : Context} {machine after : Machine} {procedure : Procedure}
  {template : Template} {params : List Tree} {expression : Tree} {arguments : List Tree}

theorem accepts_parts {registry : Registry}
    (accepted : template.accepts registry arguments = true) :
    arguments.length ≤ template.slots.length ∧
      ∀ argument ∈ arguments, argument.isSideEffectFree registry = true := by
  simp only [Template.accepts, Bool.and_eq_true, decide_eq_true_eq, List.all_eq_true] at accepted
  exact ⟨accepted.1.1, accepted.1.2⟩

/-- A call is replaced only if the template accepts it, by the body under the bindings. -/
theorem instantiate_eq_some {registry : Registry} {position : Position} {replacement : Tree}
    (instantiated : template.instantiate? registry arguments position = some replacement) :
    template.accepts registry arguments = true ∧
      ∃ bindings, Template.bind? template.slots arguments {} = some bindings ∧
        replacement = (template.body.freshCopy.substitute bindings).placeAt position := by
  unfold Template.instantiate? at instantiated
  split at instantiated
  · rename_i accepted
    obtain ⟨bindings, bound, rfl⟩ := Option.map_eq_some_iff.mp instantiated
    exact ⟨accepted, bindings, bound, rfl⟩
  · cases instantiated

theorem instantiate_accepts {registry : Registry} {position : Position} {replacement : Tree}
    (instantiated : template.instantiate? registry arguments position = some replacement) :
    template.accepts registry arguments = true :=
  (instantiate_eq_some instantiated).1

/-- Whatever a call binds that is replaced is an argument without side effects or a default. -/
theorem accepted_bindings_hold {registry : Registry} {holds : Tree → Prop}
    {bindings : Bindings Tree} (accepted : template.accepts registry arguments = true)
    (bound : Template.bind? template.slots arguments {} = some bindings)
    (given : ∀ argument ∈ arguments, argument.isSideEffectFree registry = true → holds argument)
    (defaults : ∀ slot ∈ template.slots, ∀ default, slot.default = some default → holds default)
    (name : String) (tree : Tree) (found : bindings.find? name = some tree) : holds tree :=
  bind_slots_holds bound (fun _ _ none => by cases none)
    (fun argument member => given argument member ((accepts_parts accepted).2 argument member))
    defaults found

/-- A call runs out of calls, or it runs the body in a scope where the returned expression denotes
what it denotes under the arguments. -/
theorem call_procedure_entered {run : Tree → Run Value}
    (closed : ∀ name ∈ expression.variableNames, ∃ slot ∈ template.slots, slot.name = name)
    (unhidden : argumentsVariable ∉ expression.variableNames)
    (aligned : List.Forall₂ Param.Matches procedure.params template.slots)
    {values : List Value} {read : Tree.Reading}
    (denotes : List.Forall₂
      (fun tree value => tree.denote context.registry read = .ok value) arguments values)
    (plain : ∀ slot ∈ template.slots.drop arguments.length, slot.HoldsNoResource)
    {bindings : Bindings Tree}
    (bound : Template.bind? template.slots arguments {} = some bindings) :
    (∃ depth, callProcedure context run procedure values machine =
        .error (.stackOverflow depth context.maxDepth) machine) ∨
      ∃ scope, callProcedure context run procedure values machine =
          runBody run scope procedure.body machine ∧
        expression.denote context.registry scope.read =
          expression.denote context.registry
            (Tree.substituted context.registry read bindings) := by
  let scope := { machine.env.procedureScope with depth := machine.env.depth + 1 }
  have nothing : scope.Realizes context.registry read {} := by
    intro name tree found
    cases found
  rcases Environment.bind_params_realizes aligned denotes plain nothing bound
    machine.store.resources with ⟨scope', done, realizes, -⟩
  have called : callProcedure context run procedure values machine =
      invoke context run procedure.params procedure.body values machine.env.procedureScope
        machine := rfl
  rw [called, invoke_bound done]
  split
  · exact Or.inl ⟨_, rfl⟩
  · refine Or.inr ⟨_, rfl, ?_⟩
    have covered : ∀ name ∈ expression.variableNames, bindings.contains name = true := by
      intro name member
      rcases closed name member with ⟨slot, within, rfl⟩
      exact bind_slots_covers bound within
    rw [denote_realized realizes covered]
    apply Tree.denote_congr
    intro name member position
    have differs : name ≠ argumentsVariable := fun same => unhidden (same ▸ member)
    unfold Environment.read
    rw [Environment.get_set, if_neg differs]

theorem call_returning_procedure (faithful : context.registry.ComputesPurely)
    (clear : machine.store.interrupted = false)
    (returned : procedure.body.returned? = some expression)
    (quiet : expression.Quiet context.registry)
    (closed : ∀ name ∈ expression.variableNames, ∃ slot ∈ template.slots, slot.name = name)
    (unhidden : argumentsVariable ∉ expression.variableNames)
    (aligned : List.Forall₂ Param.Matches procedure.params template.slots)
    {values : List Value} {read : Tree.Reading}
    (denotes : List.Forall₂
      (fun tree value => tree.denote context.registry read = .ok value) arguments values)
    (plain : ∀ slot ∈ template.slots.drop arguments.length, slot.HoldsNoResource)
    {bindings : Bindings Tree}
    (bound : Template.bind? template.slots arguments {} = some bindings) (calls : Nat) :
    (∃ depth, callProcedure context (bodyRunner context calls) procedure values machine =
        .error (.stackOverflow depth context.maxDepth) machine) ∨
      callProcedure context (bodyRunner context calls) procedure values machine =
        Run.ofExcept (expression.denote context.registry
          (Tree.substituted context.registry read bindings)) machine := by
  have entered := @call_procedure_entered context machine procedure template expression arguments
    (bodyRunner context calls) closed unhidden aligned values read denotes plain bindings bound
  rcases entered with overflow | ⟨scope, called, same⟩
  · exact Or.inl overflow
  · rw [called]
    cases calls with
    | zero => exact Or.inl ⟨_, rfl⟩
    | succ calls =>
        right
        rw [run_body_returning faithful clear returned quiet, same]

theorem denote_all_values {registry : Registry} {read : Tree.Reading} {values : List Value}
    (done : Tree.denoteAll registry read arguments = .ok values) :
    List.Forall₂ (fun tree value => tree.denote registry read = .ok value) arguments values := by
  induction arguments generalizing values with
  | nil =>
      cases done
      exact .nil
  | cons argument rest induction =>
      simp only [Tree.denoteAll] at done
      cases first : argument.denote registry read with
      | error error => simp [first] at done
      | ok value =>
          cases others : Tree.denoteAll registry read rest with
          | error error => simp [first, others] at done
          | ok values' =>
              simp only [first, others, Except.ok.injEq] at done
              subst done
              exact .cons first (induction others)

/-- If an argument has no value and no later slot has the name of its slot, then the replacement
has no value either, since an argument that is not constant is read for certain. -/
theorem unhidden_argument_fails {registry : Registry} {read : Tree.Reading}
    (described : template.Describes registry params expression)
    (quiet : expression.Quiet registry) (bare : expression.Everywhere Tree.BareLeaf)
    (accepted : template.accepts registry arguments = true) {bindings : Bindings Tree}
    (bound : Template.bind? template.slots arguments {} = some bindings) {index : Nat}
    {argument : Tree} {slot : Slot} (given : arguments[index]? = some argument)
    (placed : template.slots[index]? = some slot)
    (last : slot.name ∉ (template.slots.drop (index + 1)).map Slot.name) {error : EvalError}
    (failed : argument.denote registry read = .error error) :
    ∃ error, expression.denote registry (Tree.substituted registry read bindings) =
      .error error := by
  have paired : (argument, slot) ∈ arguments.zip template.slots :=
    List.mem_of_getElem? (List.getElem?_zip_eq_some.mpr ⟨given, placed⟩)
  have certain : slot.name ∈ expression.certainReads := by
    simp only [Template.accepts, Bool.and_eq_true, List.all_eq_true, Bool.or_eq_true] at accepted
    rcases accepted.2 (argument, slot) paired with constant | strict
    · rcases argument with ⟨payload, position, optimized, facts, children⟩
      cases payload with
      | literal value => cases failed
      | _ => cases constant
    · rw [described.strict] at strict
      simpa using strict
  apply Tree.denote_fails_of_certain_read _ quiet bare certain
  intro position
  refine ⟨error, ?_⟩
  simp only [Tree.substituted, bind_slots_argument bound given placed last, failed]

/-- Where parameters have distinct names, no argument is hidden. -/
theorem failing_argument_fails {registry : Registry} {read : Tree.Reading}
    (described : template.Describes registry params expression)
    (quiet : expression.Quiet registry) (bare : expression.Everywhere Tree.BareLeaf)
    (distinct : (template.slots.map Slot.name).Nodup)
    (accepted : template.accepts registry arguments = true) {bindings : Bindings Tree}
    (bound : Template.bind? template.slots arguments {} = some bindings) {error : EvalError}
    (failed : Tree.denoteAll registry read arguments = .error error) :
    ∃ error, expression.denote registry (Tree.substituted registry read bindings) =
      .error error := by
  rcases Tree.denote_all_error failed with ⟨argument, member, cause⟩
  rcases List.mem_iff_getElem?.mp member with ⟨index, given⟩
  have within : index < template.slots.length :=
    Nat.lt_of_lt_of_le (List.getElem?_eq_some_iff.mp given).1 (accepts_parts accepted).1
  have apart : template.slots[index].name ∉ (template.slots.drop (index + 1)).map Slot.name := by
    have later := distinct.sublist ((List.drop_sublist index template.slots).map Slot.name)
    rw [List.drop_eq_getElem_cons within, List.map_cons] at later
    exact (List.nodup_cons.mp later).1
  exact unhidden_argument_fails described quiet bare accepted bound given
    (List.getElem?_eq_getElem within) apart cause

theorem replacement_denotes (env : Environment) {position : Position} {replacement : Tree}
    (apart : context.registry.KeepsNamesApart)
    (described : template.Describes context.registry params expression)
    (instantiated : template.instantiate? context.registry arguments position =
      some replacement) :
    ∃ bindings, Template.bind? template.slots arguments {} = some bindings ∧
      replacement.Quiet context.registry ∧
      ∀ value, replacement.denote context.registry env.read = .ok value ↔
        expression.denote context.registry
          (Tree.substituted context.registry env.read bindings) = .ok value := by
  obtain ⟨accepted, bindings, bound, rfl⟩ := instantiate_eq_some instantiated
  refine ⟨bindings, bound, ?_, ?_⟩
  · have quiet := Tree.quiet_of_side_effect_free apart expression described.quiet
    rw [described.body]
    apply Tree.CallsOnly.place_at
    apply quiet.fresh_copy.fresh_copy.substitute
    refine accepted_bindings_hold accepted bound
      (fun argument _ => Tree.quiet_of_side_effect_free apart argument) ?_
    intro slot member default given
    rcases slot_of_node described.slots member with ⟨node, -, analyzed⟩
    rcases slot_default_literal analyzed given with ⟨value, literal⟩
    rcases default with ⟨payload, position, optimized, facts, children⟩
    subst literal
    exact .literal value _ _ _ _
  · intro value
    rw [Tree.denote_place_at_iff (reading_ignores_position env), Tree.denote_substitute,
      Tree.denote_fresh_copy, described.body, Tree.denote_fresh_copy]

end Calls

theorem Tree.payloads_fresh_copy (tree : Tree) : tree.freshCopy.payloads = tree.payloads := by
  induction tree using Tree.induction with
  | node payload position optimized facts children induction =>
      rw [freshCopy, freshCopies_eq_map, payloads, payloads, childPayloads_eq_flatMap,
        childPayloads_eq_flatMap, List.flatMap_map]
      congr 1
      exact List.flatMap_congr induction

theorem Template.Describes.reads {registry : Registry} {template : Template} {params : List Tree}
    {expression : Tree} (described : template.Describes registry params expression)
    (name : String) : name ∈ template.body.variableNames ↔ name ∈ expression.variableNames := by
  rw [Tree.mem_variable_names, Tree.mem_variable_names, described.body, Tree.payloads_fresh_copy]

end TreeScript
