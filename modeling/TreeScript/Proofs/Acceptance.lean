import Mathlib.Data.Set.List
import TreeScript.Proofs.Rejection
import TreeScript.Proofs.Restoring
/-!
# Definitions that are accepted

A definition is checked twice. The optimizer checks its name, the shape of each parameter and, when
it visits a parameter, the number of its parts; the evaluator checks the name and the shapes only.
Here nothing else can go wrong in the definition: its body and its defaults are constants, and no
flag spares a part of it the visit. What both look for is stated on the tree alone, and each of them
is compared with that.

The two differ on one shape. A parameter that is an assignment with more than a name and a default
is taken by the evaluator, which never looks at the rest.
-/

namespace TreeScript

set_option autoImplicit false

namespace Tree

/-- The parameter that a node stands for, if its default is a constant. -/
def constantParam? (node : Tree) : Option Param :=
  match node.parameter? with
  | some (name, none) => some ⟨name, .null⟩
  | some (name, some default) => default.value?.map fun value => ⟨name, value⟩
  | none => none

/-- The parameters of a definition are those parts that are neither its name nor its body. -/
def paramNodes (definition : Tree) : List Tree := definition.children.tail.dropLast

/-- A definition in which nothing is evaluated but constants, and nothing has been visited. -/
structure PlainDefinition (node : Tree) : Prop where
  definition : node.specialForm? = some .procedure
  unsettled : node.Everywhere fun part => part.optimized = false
  body : (bodyOf node.children.tail).isConstant = true
  defaults : ∀ param ∈ node.paramNodes, ∀ name default,
    param.parameter? = some (name, some default) → default.isConstant = true

/-- An assignment that is a parameter has a name and a default, and nothing more. -/
def Fits (param : Tree) : Prop :=
  param.specialForm? = some .assignment → param.children.length ≤ 2

/-- What makes a definition acceptable: a name that procedures may have, and then parameters. -/
structure Defines (node : Tree) (name : String) (made : List Param) : Prop where
  definition : node.specialForm? = some .procedure
  named : (node.children.head?.bind procedureName?).filter isProcedureName = some name
  params : node.paramNodes.map constantParam? = made.map some

/-- Two definitions of the same procedure, apart from notes on the body. -/
structure Redefines (kept node : Tree) (name : String) (made : List Param) : Prop where
  before : node.Defines name made
  after : kept.Defines name made
  position : kept.position = node.position
  body : (bodyOf kept.children.tail).value? = (bodyOf node.children.tail).value?

theorem payload_of_constant {tree : Tree} (constant : tree.isConstant = true) :
    ∃ value, tree.payload = .literal value := by
  rw [isConstant_eq] at constant
  exact ⟨_, payload_of_value (Option.eq_some_of_isSome constant)⟩

theorem constant_param_eq_some {node : Tree} {param : Param}
    (constant : node.constantParam? = some param) :
    (∃ position optimized facts children,
        node = ⟨.variable param.name, position, optimized, facts, children⟩ ∧
          param.default = .null) ∨
      ∃ position optimized facts target expression rest,
        node = ⟨.call SpecialForm.assignment.name, position, optimized, facts,
          target :: expression :: rest⟩ ∧ target.payload = .variable param.name ∧
          expression.payload = .literal param.default := by
  unfold constantParam? at constant
  cases shape : node.parameter? with
  | none =>
      rw [shape] at constant
      cases constant
  | some written =>
      rw [shape] at constant
      obtain ⟨name, default⟩ := written
      obtain ⟨position, optimized, facts, children, rfl, rfl⟩ |
        ⟨position, optimized, facts, target, expression, rest, rfl, named, rfl⟩ :=
        parameter_eq_some shape
      · cases constant
        exact Or.inl ⟨_, _, _, _, rfl, rfl⟩
      · obtain ⟨value, shown, rfl⟩ := Option.map_eq_some_iff.mp constant
        exact Or.inr ⟨_, _, _, _, _, _, rfl, named, payload_of_value shown⟩

theorem constant_param_assigned {param : Param} (position : Position) (optimized : Bool)
    (facts : Facts) {target expression : Tree} (rest : List Tree)
    (named : target.payload = .variable param.name)
    (shown : expression.payload = .literal param.default) :
    constantParam? ⟨.call SpecialForm.assignment.name, position, optimized, facts,
      target :: expression :: rest⟩ = some param := by
  have value : expression.value? = some param.default := by rw [value?, shown]; rfl
  obtain ⟨name, default⟩ := param
  unfold constantParam?
  rw [parameter_assigned position optimized facts expression rest named]
  simp only [value]
  rfl

theorem written_of_constant_param {node : Tree} {param : Param}
    (constant : node.constantParam? = some param) : node.parameter?.isSome = true := by
  unfold constantParam? at constant
  cases shape : node.parameter? with
  | none =>
      rw [shape] at constant
      cases constant
  | some written => rfl

theorem constant_param_of_written {node : Tree} (written : node.parameter?.isSome = true)
    (plain : ∀ name default, node.parameter? = some (name, some default) →
      default.isConstant = true) : ∃ param, node.constantParam? = some param := by
  obtain ⟨⟨name, default⟩, shape⟩ := Option.isSome_iff_exists.mp written
  unfold constantParam?
  rw [shape]
  cases default with
  | none => exact ⟨_, rfl⟩
  | some default =>
      obtain ⟨value, shown⟩ := payload_of_constant (plain name default shape)
      simp only [value?, shown]
      exact ⟨_, rfl⟩

theorem PlainDefinition.defines {node : Tree} {name : String} (plain : node.PlainDefinition)
    (named : (node.children.head?.bind procedureName?).filter isProcedureName = some name)
    (written : ∀ param ∈ node.paramNodes, param.parameter?.isSome = true) :
    ∃ made, node.Defines name made := by
  have constant : ∀ shape ∈ node.paramNodes.map constantParam?, ∃ param, some param = shape := by
    intro shape member
    obtain ⟨param, among, rfl⟩ := List.mem_map.mp member
    obtain ⟨made, same⟩ := constant_param_of_written (written param among)
      (plain.defaults param among)
    exact ⟨made, same.symm⟩
  obtain ⟨made, same⟩ : ∃ made : List Param, made.map some = node.paramNodes.map constantParam? := by
    rw [← Set.mem_range, Set.range_list_map]
    exact constant
  exact ⟨made, plain.definition, named, same.symm⟩

end Tree

section Evaluation

variable {context : Context} {run : Tree → Run Value} {machine : Machine}

theorem evaluate_constant_param {node : Tree} {param : Param}
    (constant : node.constantParam? = some param) (clear : machine.store.interrupted = false) :
    evaluateParam context run node machine = .ok param machine := by
  obtain ⟨name, default⟩ := param
  obtain ⟨position, optimized, facts, children, rfl, null⟩ |
    ⟨position, optimized, facts, target, expression, rest, rfl, named, shown⟩ :=
    Tree.constant_param_eq_some constant
  · obtain rfl : default = .null := null
    rw [evaluateParam, pure_apply]
  · rcases target with ⟨payload, position', optimized', facts', children'⟩
    subst named
    rcases expression with ⟨payload, place, settled, noted, below⟩
    subst shown
    rw [evaluate_param_assigned, bind_apply, evaluate_literal, unless_interrupted_clear _ clear,
      pure_apply]
    simp only [pure_apply]

theorem evaluate_constant_params : {parts : List Tree} → {made : List Param} →
    parts.dropLast.map Tree.constantParam? = made.map some → machine.store.interrupted = false →
    evaluateParams context run parts machine = .ok made machine
  | [], [], _, _ | [_], [], _, _ => rfl
  | node :: next :: rest, param :: made, constant, clear => by
      rw [List.dropLast_cons_cons, List.map_cons, List.map_cons, List.cons.injEq] at constant
      rw [evaluateParams, bind_apply, evaluate_constant_param constant.1 clear]
      simp only [bind_apply, evaluate_constant_params constant.2 clear, pure_apply]

/-- What is acceptable is evaluated without an error, and changes nothing but the definition. -/
theorem evaluate_defines {node : Tree} {name : String} {made : List Param}
    (defines : node.Defines name made) (clear : machine.store.interrupted = false) :
    evaluate context run node machine =
      .ok .void { machine with
        env := machine.env.define ⟨name, made, bodyOf node.children.tail, node.position⟩ } := by
  obtain ⟨position, optimized, facts, children, rfl⟩ :=
    Tree.eq_call_of_specialForm defines.definition
  cases children with
  | nil => cases defines.named
  | cons nameNode rest =>
      have named : nameNode.procedureName?.filter Tree.isProcedureName = some name := defines.named
      have given : definedName position nameNode = pure name := by
        unfold definedName
        rw [named]
      have evaluated : evaluateParams context run rest machine = .ok made machine :=
        evaluate_constant_params defines.params clear
      rw [evaluate_form context run _ _ _ _ (SpecialForm.ofName?_name .procedure)
        (by simp [SpecialForm.arity]), unless_interrupted_clear _ clear, evaluateForm,
        evaluateDefinition, given, pure_bind, bind_apply, evaluated]
      simp only [bind_apply, modify_env_apply, pure_apply, List.tail_cons]

/-- A plain definition whose evaluation succeeds is acceptable. -/
theorem defines_of_evaluate {node : Tree} {value : Value} {after : Machine}
    (plain : node.PlainDefinition) (done : evaluate context run node machine = .ok value after) :
    ∃ name made, node.Defines name made := by
  have special := SpecialForm.ofName?_name .procedure
  obtain ⟨position, optimized, facts, children, rfl⟩ :=
    Tree.eq_call_of_specialForm plain.definition
  cases children with
  | nil =>
      rw [evaluate_mismatch context run _ _ _ _ special rfl] at done
      cases (unless_interrupted_ok done).2
  | cons nameNode rest =>
      rw [evaluate_form context run _ _ _ _ special (by simp [SpecialForm.arity])] at done
      obtain ⟨name, params, between, named, evaluated, -⟩ :=
        evaluate_definition_ok context run position (unless_interrupted_ok done).2
      exact ⟨name, plain.defines named fun param member =>
        Option.isSome_iff_ne_none.mpr (evaluate_params_written evaluated param member)⟩

end Evaluation

section Visits

variable {optimizer : Optimizer} {revisit : Option (Tree → Pass Tree)}

abbrev Pass.Succeeds {Result : Type} (good : Result → Prop) (action : Pass Result) : Prop :=
  Pass.Achieves (fun _ => True) good action

theorem visit_leaf_succeeds {node : Tree} (unsettled : node.optimized = false)
    (leaf : node.functionName? = none) :
    Pass.Succeeds (· = node.settle true) (optimizer.visit revisit node) :=
  fun progress all => ⟨_, _, visit_leaf _ _ unsettled leaf progress, rfl, rfl, all⟩

theorem visit_param_succeeds {node : Tree} {param : Param}
    (constant : node.constantParam? = some param)
    (unsettled : node.Everywhere fun part => part.optimized = false) (fits : node.Fits) :
    Pass.Succeeds (fun node' => node'.constantParam? = some param)
      (optimizer.visit revisit node) := by
  obtain ⟨position, optimized, facts, children, rfl, null⟩ |
    ⟨position, optimized, facts, target, expression, rest, rfl, named, shown⟩ :=
    Tree.constant_param_eq_some constant
  · exact (visit_leaf_succeeds unsettled.here rfl).imp fun node' same => by rw [same]; exact constant
  · obtain rfl : optimized = false := unsettled.here
    obtain rfl : rest = [] := by simpa using fits (SpecialForm.ofName?_name .assignment)
    have special := SpecialForm.ofName?_name .assignment
    have leaf : target.functionName? = none := by rw [Tree.functionName?, named]; rfl
    have leaf' : expression.functionName? = none := by rw [Tree.functionName?, shown]; rfl
    have below := unsettled.inside
    simp only [List.forall_mem_cons] at below
    have checked : checkAssignment [target, expression] = pure () := by
      rcases target with ⟨payload, _, _, _, _⟩
      subst named
      rfl
    rw [visit_form_eq _ _ special]
    refine (Pass.Achieves.check_arity (by simp [SpecialForm.arity])).bind fun _ _ => ?_
    simp only [visitForm, checked, pure_bind, Optimizer.visitAll, bind_assoc]
    refine (visit_leaf_succeeds below.1.here leaf).bind fun target' same => ?_
    refine (visit_leaf_succeeds below.2.1.here leaf').bind fun expression' same' => .pure ?_
    subst same same'
    exact Tree.constant_param_assigned _ _ _ _ named shown

theorem visit_parts_succeed : {parts : List Tree} → {made : List Param} →
    parts.dropLast.map Tree.constantParam? = made.map some →
    (∀ part ∈ parts, part.Everywhere fun part => part.optimized = false) →
    (∀ param ∈ parts.dropLast, param.Fits) → (bodyOf parts).isConstant = true →
    Pass.Succeeds (fun parts' => parts'.dropLast.map Tree.constantParam? = made.map some ∧
        (bodyOf parts').value? = (bodyOf parts).value? ∧ parts'.length = parts.length)
      (optimizer.visitParts revisit parts)
  | [], [], _, _, _, _ => .pure ⟨rfl, rfl, rfl⟩
  | [body], [], _, unsettled, _, constant => by
      have leaf : body.functionName? = none := by
        obtain ⟨value, shown⟩ : ∃ value, body.payload = .literal value :=
          Tree.payload_of_constant constant
        rw [Tree.functionName?, shown]
        rfl
      rw [Optimizer.visitParts]
      refine ((visit_leaf_succeeds (unsettled body (by simp)).here leaf).with_frame
        .procedure).bind fun body' same => .pure ?_
      subst same
      exact ⟨rfl, rfl, rfl⟩
  | node :: next :: rest, param :: made, plain, unsettled, fits, constant => by
      rw [List.dropLast_cons_cons, List.map_cons, List.map_cons, List.cons.injEq] at plain
      rw [List.dropLast_cons_cons, List.forall_mem_cons] at fits
      rw [List.forall_mem_cons] at unsettled
      have checked : checkParameter node = pure () := by
        unfold checkParameter
        rw [if_pos (Tree.written_of_constant_param plain.1)]
      rw [Optimizer.visitParts, checked, pure_bind]
      refine (visit_param_succeeds plain.1 unsettled.1 fits.1).bind fun node' same => ?_
      refine (visit_parts_succeed plain.2 unsettled.2 fits.2 constant).bind
        fun rest' kept => .pure ?_
      obtain ⟨next', others, rfl⟩ : ∃ next' others, rest' = next' :: others :=
        List.exists_cons_of_length_eq_add_one kept.2.2
      rw [List.dropLast_cons_cons, List.map_cons, List.map_cons, same, kept.1]
      exact ⟨rfl, kept.2.1, congrArg (· + 1) kept.2.2⟩

theorem record_succeeds {node : Tree} (placement : Placement)
    (constant : (bodyOf node.children.tail).isConstant = true) :
    Pass.Succeeds (· = node) (optimizer.recordDefinition placement node) := by
  intro progress all
  obtain ⟨-, same⟩ | ⟨nameNode, name, parts, parts', definition, children, -, same, analysis⟩ :=
    record_definition_cases optimizer placement node progress
  · exact ⟨node, progress, same, rfl, rfl, all⟩
  · refine ⟨_, _, same, ?_, rfl, all.define name (fun _ _ => trivial) placement⟩
    rcases node with ⟨payload, position, optimized, facts, below⟩
    obtain rfl : below = nameNode :: parts := children
    obtain ⟨rfl, rfl, -⟩ | ⟨params, body, rfl, -, rfl⟩ := analysis
    · rfl
    · have literal : body.isConstant = true := by simpa [bodyOf] using constant
      obtain ⟨value, shown⟩ := Tree.payload_of_constant literal
      have returned : body.returned? = none := by
        simp [Tree.returned?, Tree.specialForm?, Tree.functionName?, shown, Payload.functionName?]
      simp only [Definition.analyze, returned]

theorem visit_definition_succeeds {node : Tree} {name : String} {made : List Param}
    (plain : node.PlainDefinition) (defines : node.Defines name made)
    (fits : ∀ param ∈ node.paramNodes, param.Fits) :
    Pass.Succeeds (fun kept => kept.Redefines node name made)
      (optimizer.visit revisit node) := by
  obtain ⟨position, optimized, facts, children, rfl⟩ :=
    Tree.eq_call_of_specialForm defines.definition
  obtain rfl : optimized = false := plain.unsettled.here
  cases children with
  | nil => cases defines.named
  | cons nameNode rest =>
      have named : nameNode.procedureName?.filter Tree.isProcedureName = some name := defines.named
      have valid : Tree.isProcedureName name = true := (Option.filter_eq_some_iff.mp named).2
      have constant : (bodyOf rest).isConstant = true := plain.body
      have unsettled := (List.forall_mem_cons.mp plain.unsettled.inside).2
      have normalized : normalizeName nameNode =
          pure ((Tree.literal (.string name) nameNode.position).settle true) := by
        unfold normalizeName
        rw [named]
      rw [visit_form_eq _ _ (SpecialForm.ofName?_name .procedure)]
      refine (Pass.Achieves.check_arity (by simp [SpecialForm.arity])).bind fun _ _ => ?_
      simp only [visitForm, Optimizer.visitDefinition, normalized, pure_bind, bind_assoc]
      refine (visit_parts_succeed defines.params unsettled fits constant).bind fun rest' same => ?_
      let kept : Tree := ⟨.call SpecialForm.procedure.name, position, true, {},
        (Tree.literal (.string name) nameNode.position).settle true :: rest'⟩
      have again : kept.Defines name made :=
        ⟨SpecialForm.ofName?_name .procedure, Option.filter_eq_some_iff.mpr ⟨rfl, valid⟩, same.1⟩
      have recorded : Pass.Succeeds (· = kept) (optimizer.recordDefinition .nested kept) := by
        refine record_succeeds .nested ?_
        rw [Tree.isConstant_eq] at constant ⊢
        exact same.2.1 ▸ constant
      refine recorded.bind fun node' unchanged => .pure ?_
      subst unchanged
      exact ⟨defines, again, rfl, same.2.1⟩

theorem visit_parts_fit : {parts parts' : List Tree} → {progress after : Progress} →
    (∀ param ∈ parts.dropLast, param.optimized = false) →
    optimizer.visitParts revisit parts progress = .ok parts' after →
    ∀ param ∈ parts.dropLast, param.parameter?.isSome = true ∧ param.Fits
  | [], _, _, _, _, _ | [_], _, _, _, _, _ => nofun
  | node :: next :: rest, parts', progress, after, unsettled, done => by
      rw [List.dropLast_cons_cons, List.forall_mem_cons] at unsettled ⊢
      obtain ⟨written, node', between, rest', visited, later, -⟩ := visit_parts_cons _ _ done
      refine ⟨⟨written, fun assigns => ?_⟩, visit_parts_fit unsettled.2 later⟩
      obtain ⟨position, optimized, facts, children, rfl⟩ := Tree.eq_call_of_specialForm assigns
      obtain rfl : optimized = false := unsettled.1
      obtain ⟨accepted, -⟩ := visit_form_ok _ _ (SpecialForm.ofName?_name .assignment) visited
      exact Nat.le_of_eq (by simpa [SpecialForm.arity] using accepted)

/-- A plain definition that the optimizer keeps is acceptable, and every parameter fits. -/
theorem defines_of_visit {node kept : Tree} {progress after : Progress}
    (plain : node.PlainDefinition)
    (done : optimizer.visit revisit node progress = .ok kept after) :
    (∃ name made, node.Defines name made) ∧ ∀ param ∈ node.paramNodes, param.Fits := by
  obtain ⟨position, optimized, facts, children, rfl⟩ :=
    Tree.eq_call_of_specialForm plain.definition
  obtain rfl : optimized = false := plain.unsettled.here
  obtain ⟨accepted, out, formed, rfl⟩ := visit_form_ok _ _ (SpecialForm.ofName?_name .procedure) done
  obtain ⟨parts, between, visited, recorded⟩ := bind_eq_ok formed
  cases children with
  | nil => cases accepted
  | cons nameNode rest =>
      obtain ⟨name, rest', given, valid, later, rfl⟩ := visit_definition_ok _ _ visited
      have fit := visit_parts_fit (fun param member =>
        (plain.unsettled.inside param (List.mem_cons_of_mem _ (List.dropLast_subset _ member))).here)
        later
      exact ⟨⟨name, plain.defines (Option.filter_eq_some_iff.mpr ⟨given, valid⟩)
        fun param member => (fit param member).1⟩, fun param member => (fit param member).2⟩

theorem pass_eq_visit (optimizer : Optimizer) (depth : Nat) :
    ∃ revisit, optimizer.pass depth = optimizer.visit revisit := by
  cases depth with
  | zero => exact ⟨none, rfl⟩
  | succ depth => exact ⟨some (optimizer.pass depth), rfl⟩

theorem optimize_definition {node : Tree} {name : String} {made : List Param}
    (plain : node.PlainDefinition) (defines : node.Defines name made)
    (fits : ∀ param ∈ node.paramNodes, param.Fits) (store : Store) :
    ∃ kept, optimizer.optimize node store = .ok kept store ∧ kept.Redefines node name made := by
  obtain ⟨revisit, same⟩ := pass_eq_visit optimizer Optimizer.maxInlining
  have succeeds : Pass.Succeeds _ (optimizer.visit revisit node) :=
    visit_definition_succeeds plain defines fits
  obtain ⟨kept, after, visited, redefines, unchanged, -⟩ :=
    succeeds ⟨Scopes.initial, store⟩ fun _ _ _ _ _ => trivial
  refine ⟨kept, ?_, redefines⟩
  unfold Optimizer.optimize runVisit
  rw [same, visited]
  exact congrArg (EStateM.Result.ok kept) unchanged

theorem optimized_definition {node kept : Tree} {store after : Store}
    (plain : node.PlainDefinition) (done : optimizer.optimize node store = .ok kept after) :
    (∃ name made, kept.Redefines node name made) ∧ ∀ param ∈ node.paramNodes, param.Fits := by
  obtain ⟨revisit, same⟩ := pass_eq_visit optimizer Optimizer.maxInlining
  obtain ⟨progress, visited, -⟩ := run_visit_ok done
  rw [same] at visited
  obtain ⟨⟨name, made, defines⟩, fits⟩ := defines_of_visit plain visited
  obtain ⟨kept', done', redefines⟩ : ∃ kept', optimizer.optimize node store = .ok kept' store ∧
      kept'.Redefines node name made := optimize_definition plain defines fits store
  rw [done] at done'
  cases done'
  exact ⟨⟨name, made, redefines⟩, fits⟩

end Visits

/-- A plain definition is accepted by the optimizer exactly if its evaluation succeeds and none of
its parameters has more parts than a name and a default. Then both create a procedure with the same
name, parameters, defaults and position, and do nothing else. -/
theorem definitions_accepted_alike {optimizer : Optimizer} {node : Tree} {context : Context}
    {run : Tree → Run Value} {machine : Machine} (plain : node.PlainDefinition)
    (clear : machine.store.interrupted = false) (store : Store) :
    ((∃ kept after, optimizer.optimize node store = .ok kept after) ↔
      (∃ value after, evaluate context run node machine = .ok value after) ∧
        ∀ param ∈ node.paramNodes, param.Fits) ∧
    ∀ kept after, optimizer.optimize node store = .ok kept after →
      ∃ name params body body', body'.value? = body.value? ∧
        evaluate context run node machine = .ok .void { machine with
          env := machine.env.define ⟨name, params, body, node.position⟩ } ∧
        evaluate context run kept machine = .ok .void { machine with
          env := machine.env.define ⟨name, params, body', node.position⟩ } := by
  refine ⟨⟨?accepted, ?evaluated⟩, ?same⟩
  case accepted =>
    rintro ⟨kept, after, done⟩
    obtain ⟨⟨name, made, redefines⟩, fits⟩ := optimized_definition plain done
    exact ⟨⟨.void, _, evaluate_defines redefines.before clear⟩, fits⟩
  case evaluated =>
    rintro ⟨⟨value, after, done⟩, fits⟩
    obtain ⟨name, made, defines⟩ := defines_of_evaluate plain done
    obtain ⟨kept, optimized, -⟩ := optimize_definition plain defines fits store
    exact ⟨kept, store, optimized⟩
  case same =>
    intro kept after done
    obtain ⟨⟨name, made, redefines⟩, -⟩ := optimized_definition plain done
    refine ⟨name, made, _, _, redefines.body, evaluate_defines redefines.before clear, ?_⟩
    rw [evaluate_defines redefines.after clear, redefines.position]

def padded (further : List Tree) : Tree :=
  .call SpecialForm.procedure.name
    [.literal (.string "_p") .unknown,
      .call SpecialForm.assignment.name
        (.node (.variable "@x") [] .unknown :: .literal (.int 1) .unknown :: further) .unknown,
      .literal (.int 0) .unknown] .unknown

theorem padded_plain {further : List Tree}
    (unsettled : (padded further).Everywhere fun part => part.optimized = false) :
    (padded further).PlainDefinition where
  definition := rfl
  unsettled := unsettled
  body := rfl
  defaults := by
    intro param member name default shape
    obtain rfl := List.mem_singleton.mp member
    cases shape
    rfl

theorem definitions_accepted_alike_of_padded :
    (padded []).PlainDefinition ∧
    ∃ kept after, Optimizer.optimize ⟨Prelude.registry, {}⟩ (padded []) {} = .ok kept after ∧
      ∃ name params body body', body'.value? = body.value? ∧
        (padded []).eval .standard {} =
          .ok .void { env := Environment.define {} ⟨name, params, body, .unknown⟩ } ∧
        kept.eval .standard {} =
          .ok .void { env := Environment.define {} ⟨name, params, body', .unknown⟩ } := by
  have plain : (padded []).PlainDefinition := padded_plain (by decide)
  have clear : ({} : Machine).store.interrupted = false := rfl
  obtain ⟨accepted, same⟩ := definitions_accepted_alike plain clear {}
  have fits : ∀ param ∈ (padded []).paramNodes, param.Fits := by
    intro param member _
    obtain rfl := List.mem_singleton.mp member
    exact Nat.le_refl 2
  obtain ⟨kept, after, optimized⟩ := accepted.mpr ⟨⟨.void, _, rfl⟩, fits⟩
  exact ⟨plain, kept, after, optimized, same kept after optimized⟩

/-- A third part of a parameter is seen by the optimizer only. -/
theorem padded_parameter_rejected :
    let made : Procedure := ⟨"_p", [⟨"@x", .int 1⟩], .literal (.int 0) .unknown, .unknown⟩
    (padded [.literal (.int 2) .unknown]).PlainDefinition ∧
    Optimizer.optimize ⟨Prelude.registry, {}⟩ (padded [.literal (.int 2) .unknown]) {} =
      .error (.arityMismatch SpecialForm.assignment.name SpecialForm.assignment.arity 3 .unknown)
        {} ∧
    (padded [.literal (.int 2) .unknown]).eval .standard {} =
      .ok .void { env := Environment.define {} made } :=
  ⟨padded_plain (by decide), rfl, rfl⟩

end TreeScript
