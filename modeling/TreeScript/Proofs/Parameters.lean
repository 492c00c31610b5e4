import TreeScript.Proofs.Contracts
import TreeScript.Proofs.Rejection
/-!
# Parameter lists of closures

To the evaluator the parameters of a closure are syntax, a name or a name with a default. A visit
goes about them as about any other children. What stands at the place of a well-formed parameter
afterwards is a parameter with the same name, and it has a default if and only if the first one had.

A position that is not well formed makes the evaluation of the closure fail, and for most of them a
visit leaves something that is not well formed either. This is not so where a node dissolves: a
sequence around a single variable comes to the variable, and so may a conditional that is decided
and a call that is replaced. Nothing is claimed here of closures all of whose malformed positions
are of that kind.
-/

namespace TreeScript

set_option autoImplicit false

namespace Tree

theorem parameter_shape_eq_none {tree : Tree} :
    tree.parameterShape? = none ↔ tree.parameter? = none := by
  rw [parameterShape?, Option.map_eq_none_iff]

theorem malformed_of_call {tree : Tree} {name : String} (called : tree.payload = .call name)
    (other : SpecialForm.ofName? name ≠ some .assignment) : tree.parameter? = none := by
  rcases tree with ⟨payload, position, optimized, facts, children⟩
  subst called
  exact if_neg other

theorem malformed_of_literal {tree : Tree} {value : Value} (shown : tree.payload = .literal value) :
    tree.parameter? = none := by
  rcases tree with ⟨payload, position, optimized, facts, children⟩
  subst shown
  rfl

/-- Evaluating a closure form makes no closure. It fails, or one of the defaults returns first. -/
def CapturesNothing (tree : Tree) : Prop :=
  ∀ context run machine, ∃ error after, evaluate context run tree machine = .error error after ∧
    ∀ value, error = .returned value →
      ∃ param ∈ tree.children.dropLast, ∃ name default before,
        param.parameter? = some (name, some default) ∧
          evaluate context run default before = .error (.returned value) after

end Tree

/-- Whether something of another form may stand in the place of a node after a visit: a sequence
collapses, a conditional is decided, and a call of a procedure is replaced. -/
def Optimizer.mayDissolve (optimizer : Optimizer) (node : Tree) : Bool :=
  !node.optimized &&
    match node.functionName? with
    | none => false
    | some name =>
        match SpecialForm.ofName? name with
        | some form =>
            form.isSequence ||
              Tree.isConditional node.payload && optimizer.options.eliminateBranches
        | none => Tree.isProcedureName name && optimizer.options.inlineProcedures

section Evaluation

variable {context : Context} {run : Tree → Run Value} {parts : List Tree} {machine after : Machine}

theorem evaluate_param_returned {param : Tree} {value : Value}
    (returned : evaluateParam context run param machine = .error (.returned value) after) :
    ∃ name default, param.parameter? = some (name, some default) ∧
      evaluate context run default machine = .error (.returned value) after := by
  cases shape : param.parameter? with
  | none =>
      rw [evaluate_param_malformed _ _ shape] at returned
      cases returned
  | some written =>
      obtain ⟨name, default⟩ := written
      obtain ⟨position, optimized, facts, children, rfl, rfl⟩ |
        ⟨position, optimized, facts, target, expression, rest, rfl, named, rfl⟩ :=
        Tree.parameter_eq_some shape
      · rw [evaluateParam] at returned
        cases returned
      · rcases target with ⟨payload, position', optimized', facts', children'⟩
        subst named
        rw [evaluate_param_assigned, bind_apply] at returned
        cases outcome : evaluate context run expression machine with
        | ok made between =>
            rw [outcome] at returned
            cases returned
        | error error between =>
            rw [outcome] at returned
            cases returned
            exact ⟨name, expression, rfl, outcome⟩

theorem evaluate_params_returned {value : Value} :
    {parts : List Tree} → {machine : Machine} →
    evaluateParams context run parts machine = .error (.returned value) after →
    ∃ param ∈ parts.dropLast, ∃ name default before,
      param.parameter? = some (name, some default) ∧
        evaluate context run default before = .error (.returned value) after
  | [], _, returned | [_], _, returned => by
      rw [evaluateParams] at returned
      cases returned
  | param :: next :: rest, machine, returned => by
      rw [evaluateParams, bind_apply] at returned
      cases first : evaluateParam context run param machine with
      | error error between =>
          rw [first] at returned
          cases returned
          obtain ⟨name, default, written, evaluated⟩ := evaluate_param_returned first
          exact ⟨param, by simp, name, default, machine, written, evaluated⟩
      | ok made between =>
          rw [first] at returned
          simp only [bind_apply] at returned
          cases later : evaluateParams context run (next :: rest) between with
          | ok others final =>
              rw [later] at returned
              cases returned
          | error error final =>
              rw [later] at returned
              cases returned
              obtain ⟨found, member, facts⟩ := evaluate_params_returned later
              rw [List.dropLast_cons_cons]
              exact ⟨found, List.mem_cons_of_mem _ member, facts⟩

/-- A closure form with a malformed parameter never makes a closure. -/
theorem malformed_closure_fails {name : String} {position : Position} {optimized : Bool}
    {facts : Facts} (special : SpecialForm.ofName? name = some .closure)
    (malformed : ∃ param ∈ parts.dropLast, param.parameter? = none) :
    Tree.CapturesNothing ⟨.call name, position, optimized, facts, parts⟩ := by
  intro context run machine
  rw [evaluate_form context run _ _ _ _ special (by simp [SpecialForm.arity])]
  cases flag : machine.store.interrupted with
  | true =>
      rw [unless_interrupted_set _ flag]
      exact ⟨.interrupted, machine, rfl, nofun⟩
  | false =>
      rw [unless_interrupted_clear _ flag, evaluateForm, bind_apply]
      cases outcome : evaluateParams context run parts machine with
      | ok params between =>
          obtain ⟨param, member, shape⟩ := malformed
          exact absurd shape (evaluate_params_written outcome param member)
      | error error between =>
          refine ⟨error, between, rfl, ?_⟩
          rintro value rfl
          exact evaluate_params_returned outcome

end Evaluation

section Visits

variable {optimizer : Optimizer} {revisit : Option (Tree → Pass Tree)} {node node' : Tree}
  {progress after : Progress}

/-- Without the elimination of branches, all conditions and branches stay. -/
theorem visit_branches_length (off : optimizer.options.eliminateBranches = false) :
    {nodes nodes' : List Tree} → {progress : Progress} →
    optimizer.visitBranches revisit nodes progress = .ok nodes' after →
    nodes'.length = nodes.length
  | [], _, _, done => by
      rw [Optimizer.visitBranches] at done
      cases done
      rfl
  | [_], _, _, done => by
      obtain ⟨otherwise, -, rfl⟩ := visit_branches_single _ _ done
      rfl
  | condition :: branch :: rest, _, progress, done => by
      have undecided : ∀ settled, optimizer.decide? settled = none := by
        intro settled
        simp [Optimizer.decide?, off]
      rw [Optimizer.visitBranches] at done
      obtain ⟨settled, between, -, continued⟩ := bind_eq_ok done
      rw [undecided] at continued
      obtain ⟨taken, second, -, continued⟩ := bind_eq_ok continued
      obtain ⟨others, last, later, built⟩ := bind_eq_ok continued
      cases built
      have shorter := visit_branches_length off later
      simp only [List.length_cons, shorter]

theorem resolve_payload {branches : List Tree} (several : 2 ≤ branches.length) :
    (resolve node branches).payload = node.payload := by
  match branches, several with
  | _ :: _ :: _, _ => rfl

/-- What does not dissolve stays a node of its kind, or becomes a constant. -/
theorem visit_keeps_payload (stays : optimizer.mayDissolve node = false)
    (done : optimizer.visit revisit node progress = .ok node' after) :
    node'.payload = node.payload ∨ ∃ value, node'.payload = .literal value := by
  rcases node with ⟨payload, position, optimized, facts, children⟩
  cases payload with
  | literal _ | «variable» _ => exact Or.inl (visit_leaf_payload rfl done)
  | call name =>
      cases optimized with
      | true =>
          rw [visit_settled _ _ rfl] at done
          cases done
          exact Or.inl rfl
      | false =>
          cases special : SpecialForm.ofName? name with
          | none =>
              obtain ⟨children', between, out, -, called, rfl⟩ := visit_call_ok _ _ special done
              unfold visitCall at called
              split at called
              · rename_i named
                have off : optimizer.options.inlineProcedures = false := by
                  simpa [Optimizer.mayDissolve, Tree.functionName?, Payload.functionName?, special,
                    named] using stays
                rw [inline_call_off _ _ off] at called
                cases called
                exact Or.inl rfl
              · obtain ⟨builtin, -, -, ⟨rfl, -⟩ | ⟨value, store', rfl, -⟩⟩ := fold_call_ok _ called
                · exact Or.inl rfl
                · exact Or.inr ⟨value, rfl⟩
          | some form =>
              obtain ⟨accepted, out, formed, rfl⟩ := visit_form_ok _ _ special done
              left
              cases form with
              | autoConcat | sequence =>
                  simp [Optimizer.mayDissolve, Tree.functionName?, Payload.functionName?, special,
                    SpecialForm.isSequence] at stays
              | conditional | choice =>
                  have off : optimizer.options.eliminateBranches = false := by
                    simpa [Optimizer.mayDissolve, Tree.functionName?, Payload.functionName?,
                      special, SpecialForm.isSequence, Tree.isConditional] using stays
                  obtain ⟨branches, between, visited, built⟩ := bind_eq_ok formed
                  cases built
                  have several : 2 ≤ children.length := by
                    simp only [SpecialForm.arity, Arity.accepts_between, Arity.accepts_atLeast]
                      at accepted
                    omega
                  rw [← visit_branches_length off visited] at several
                  exact resolve_payload several
              | procedure =>
                  obtain ⟨parts, between, -, recorded⟩ := bind_eq_ok formed
                  obtain ⟨-, same⟩ | ⟨_, _, _, _, _, -, -, same, -⟩ :=
                    record_definition_cases optimizer .nested
                      (((Tree.setChildren ⟨.call name, position, false, facts, children⟩
                        parts)).settle true) between
                  all_goals
                    rw [same] at recorded
                    cases recorded
                    rfl
              | assignment =>
                  obtain ⟨_, _, -, continued⟩ := bind_eq_ok formed
                  obtain ⟨_, _, -, built⟩ := bind_eq_ok continued
                  cases built
                  rfl
              | closure | returning | execution =>
                  obtain ⟨_, _, -, built⟩ := bind_eq_ok formed
                  cases built
                  rfl

theorem visit_assignment_written {position : Position} {facts : Facts} {children : List Tree}
    {name : String} (special : SpecialForm.ofName? name = some .assignment)
    (done : optimizer.visit revisit ⟨.call name, position, false, facts, children⟩ progress =
      .ok node' after) :
    Tree.parameter? ⟨.call name, position, false, facts, children⟩ ≠ none := by
  obtain ⟨accepted, out, formed, rfl⟩ := visit_form_ok _ _ special done
  obtain ⟨target, expression, rfl⟩ : ∃ target expression, children = [target, expression] :=
    List.length_eq_two.mp (by simpa [SpecialForm.arity] using accepted)
  obtain ⟨⟨written, isVariable⟩, -⟩ := visit_assignment_ok _ _ rfl formed
  obtain rfl := (SpecialForm.ofName?_eq_some_iff name .assignment).mp special
  rw [Tree.parameter_assigned _ _ _ _ _ isVariable]
  exact nofun

/-- What is no parameter stays none unless it dissolves. -/
theorem visit_keeps_malformed (malformed : node.parameter? = none)
    (stays : optimizer.mayDissolve node = false)
    (done : optimizer.visit revisit node progress = .ok node' after) : node'.parameter? = none := by
  obtain same | ⟨value, shown⟩ := visit_keeps_payload stays done
  · rcases node with ⟨payload, position, optimized, facts, children⟩
    cases payload with
    | literal value => exact Tree.malformed_of_literal same
    | «variable» name => cases malformed
    | call name =>
        by_cases assigns : SpecialForm.ofName? name = some .assignment
        · cases optimized with
          | true =>
              rw [visit_settled _ _ rfl] at done
              cases done
              exact malformed
          | false => exact absurd malformed (visit_assignment_written assigns done)
        · exact Tree.malformed_of_call same assigns
  · exact Tree.malformed_of_literal shown

/-- A well-formed parameter is a variable or an assignment, and those stay what they are. -/
theorem parameter_stays (written : node.parameter?.isSome = true) :
    optimizer.mayDissolve node = false := by
  obtain ⟨⟨name, default⟩, shape⟩ := Option.isSome_iff_exists.mp written
  obtain ⟨position, optimized, facts, children, rfl, -⟩ |
    ⟨position, optimized, facts, target, expression, rest, rfl, -, -⟩ :=
    Tree.parameter_eq_some shape
  · simp [Optimizer.mayDissolve, Tree.functionName?, Payload.functionName?]
  · simp [Optimizer.mayDissolve, Tree.functionName?, Payload.functionName?, Tree.isConditional,
      SpecialForm.ofName?_name, SpecialForm.isSequence]

/-- Where nothing dissolves, a position says the same to a closure after a visit, or nothing again. -/
theorem visit_keeps_parameter (stays : optimizer.mayDissolve node = false)
    (done : optimizer.visit revisit node progress = .ok node' after) :
    node'.parameterShape? = node.parameterShape? := by
  cases shape : node.parameterShape? with
  | some written => exact visit_keeps_shape shape done
  | none =>
      rw [Tree.parameter_shape_eq_none] at shape ⊢
      exact visit_keeps_malformed shape stays done

theorem visit_all_parameters {nodes nodes' : List Tree}
    (done : optimizer.visitAll revisit nodes progress = .ok nodes' after) :
    List.Forall₂ (fun node node' => optimizer.mayDissolve node = false →
      node'.parameterShape? = node.parameterShape?) nodes nodes' := by
  induction nodes generalizing nodes' progress with
  | nil =>
      rw [Optimizer.visitAll] at done
      cases done
      exact .nil
  | cons node rest induction =>
      obtain ⟨node', between, rest', first, later, rfl⟩ := visit_all_cons _ _ done
      exact .cons (fun stays => visit_keeps_parameter stays first) (induction later)

/-- A closure form that the optimizer keeps, wherever it stands and whatever is known there, has as
many parameters as before. Those that are well formed keep their names and whether they have a
default. If one of the others does not dissolve, the form still never makes a closure. -/
theorem closure_parameters_kept {name : String} {position : Position} {facts : Facts}
    {children : List Tree} {kept : Tree} (special : SpecialForm.ofName? name = some .closure)
    (visited : optimizer.visit revisit ⟨.call name, position, false, facts, children⟩ progress =
      .ok kept after) :
    ∃ children', kept = ⟨.call name, position, true, {}, children'⟩ ∧
      List.Forall₂ (fun param param' =>
        param.parameter?.isSome = true ∨ optimizer.mayDissolve param = false →
          param'.parameterShape? = param.parameterShape?) children.dropLast children'.dropLast ∧
      ((∃ param ∈ children.dropLast,
          param.parameter? = none ∧ optimizer.mayDissolve param = false) →
        Tree.CapturesNothing ⟨.call name, position, false, facts, children⟩ ∧
          kept.CapturesNothing) := by
  obtain ⟨accepted, out, formed, rfl⟩ := visit_form_ok _ _ special visited
  obtain ⟨children', between, framed, built⟩ := bind_eq_ok formed
  cases built
  obtain ⟨inner, all, rfl⟩ := with_frame_ok framed
  have params : List.Forall₂ (fun param param' => optimizer.mayDissolve param = false →
      param'.parameterShape? = param.parameterShape?) children.dropLast children'.dropLast := by
    have related := visit_all_parameters all
    rw [List.dropLast_eq_take, List.dropLast_eq_take, ← related.length_eq]
    exact List.forall₂_take _ related
  refine ⟨children', rfl, params.imp fun param param' keeps => ?_, ?_⟩
  · rintro (written | stays)
    · exact keeps (parameter_stays written)
    · exact keeps stays
  · rintro ⟨param, member, malformed, stays⟩
    obtain ⟨index, within, rfl⟩ := List.getElem_of_mem member
    have within' : index < children'.dropLast.length := params.length_eq ▸ within
    have keeps := params.get within within' stays
    have still : children'.dropLast[index].parameter? = none := by
      rw [← Tree.parameter_shape_eq_none] at malformed ⊢
      exact keeps.trans malformed
    exact ⟨malformed_closure_fails special ⟨_, member, malformed⟩,
      malformed_closure_fails special ⟨_, List.getElem_mem within', still⟩⟩

/-- A closure with a default that is simplified, a constant in the place of its second parameter,
and a body. -/
def numberedClosure : Tree :=
  .call SpecialForm.closure.name
    [.call SpecialForm.assignment.name
      [.node (.variable "@x") [] .unknown,
        .call SpecialForm.sequence.name [.literal (.int 1) .unknown] .unknown] .unknown,
      .literal (.int 5) .unknown, .node (.variable "@x") [] .unknown] .unknown

theorem closure_parameters_kept_of_number :
    ∃ kept after,
      Optimizer.visit ⟨Prelude.registry, {}⟩ none numberedClosure ⟨Scopes.initial, {}⟩ =
        .ok kept after ∧
      kept.children.dropLast.map Tree.parameterShape? = [some ("@x", true), none] ∧
      numberedClosure.CapturesNothing ∧ kept.CapturesNothing := by
  let optimizer : Optimizer := ⟨Prelude.registry, {}⟩
  obtain ⟨kept, after, visited⟩ : ∃ kept after,
      optimizer.visit none numberedClosure ⟨Scopes.initial, {}⟩ = .ok kept after :=
    ⟨_, _, rfl⟩
  have special := SpecialForm.ofName?_name .closure
  obtain ⟨children', rfl, params, fails⟩ := closure_parameters_kept special visited
  have stays : optimizer.mayDissolve (.literal (.int 5) .unknown) = false := rfl
  obtain ⟨original, still⟩ := fails ⟨.literal (.int 5) .unknown, by simp, rfl, stays⟩
  refine ⟨_, after, visited, ?_, original, still⟩
  generalize children'.dropLast = params' at params
  cases params with
  | cons first others =>
      cases others with
      | cons second none =>
          cases none
          have named := first (Or.inl rfl)
          have constant := second (Or.inr stays)
          rw [List.map_cons, List.map_cons, List.map_nil, named, constant]
          rfl

/-- A sequence around a variable is no parameter, but the variable that is left of it is one. -/
theorem dissolved_parameter_captures :
    let parameter : Tree :=
      .call SpecialForm.sequence.name [.node (.variable "@x") [] .unknown] .unknown
    let closure : Tree :=
      .call SpecialForm.closure.name [parameter, .literal (.int 1) .unknown] .unknown
    parameter.parameter? = none ∧
    closure.eval .standard {} = .error (.typeError (.parameter parameter.text) .unknown) {} ∧
    ∃ kept value after, Optimizer.optimize ⟨Prelude.registry, {}⟩ closure {} = .ok kept {} ∧
      kept.eval .standard {} = .ok value after :=
  ⟨rfl, rfl, _, _, _, rfl, rfl⟩

end Visits

end TreeScript
