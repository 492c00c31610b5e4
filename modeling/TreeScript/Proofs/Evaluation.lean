import TreeScript.Evaluate
/-!
# Facts on evaluation

One equation for each way in which a node can be evaluated, so that later proofs never open the
evaluator itself. Each node looks at the interrupt flag and then does its own work. The bodies of
procedures and closures leave the environment of their caller alone.
-/

namespace TreeScript

set_option autoImplicit false

/-- What holds of a node whenever it holds of its children holds of all trees. -/
theorem Tree.induction {Holds : Tree → Prop}
    (node : ∀ payload position optimized facts children,
      (∀ child ∈ children, Holds child) →
        Holds ⟨payload, position, optimized, facts, children⟩) :
    (tree : Tree) → Holds tree
  | ⟨payload, position, optimized, facts, children⟩ =>
      node payload position optimized facts children fun child member =>
        have := List.sizeOf_lt_of_mem member
        Tree.induction node child
termination_by tree => sizeOf tree
decreasing_by simp; omega

section Actions

variable {Failure State Item Result : Type}

theorem bind_apply (action : EStateM Failure State Item)
    (next : Item → EStateM Failure State Result) (state : State) :
    (action >>= next) state =
      match action state with
      | .ok item after => next item after
      | .error failure after => .error failure after := rfl

theorem pure_apply (item : Item) (state : State) :
    (pure item : EStateM Failure State Item) state = .ok item state := rfl

theorem get_apply (state : State) : (get : EStateM Failure State State) state = .ok state state :=
  rfl

theorem throw_apply (failure : Failure) (state : State) :
    (throw failure : EStateM Failure State Item) state = .error failure state := rfl

theorem bind_eq_ok {action : EStateM Failure State Item}
    {next : Item → EStateM Failure State Result} {state after : State} {result : Result}
    (done : (action >>= next) state = .ok result after) :
    ∃ item between, action state = .ok item between ∧ next item between = .ok result after := by
  rw [bind_apply] at done
  cases first : action state with
  | ok item between =>
      rw [first] at done
      exact ⟨item, between, rfl, done⟩
  | error failure between =>
      rw [first] at done
      cases done

theorem bind_of_ok {action : EStateM Failure State Item}
    {next : Item → EStateM Failure State Result} {state between : State} {item : Item}
    (first : action state = .ok item between) : (action >>= next) state = next item between := by
  rw [bind_apply, first]

theorem bind_of_error {action : EStateM Failure State Item}
    {next : Item → EStateM Failure State Result} {state between : State} {failure : Failure}
    (first : action state = .error failure between) :
    (action >>= next) state = .error failure between := by
  rw [bind_apply, first]

theorem except_bind_ok {action : Except Failure Item} {next : Item → Except Failure Result}
    {result : Result} (done : (action >>= next) = .ok result) :
    ∃ item, action = .ok item ∧ next item = .ok result := by
  cases action with
  | error failure => cases done
  | ok item => exact ⟨item, rfl, done⟩

end Actions

theorem modify_env_apply (change : Environment → Environment) (machine : Machine) :
    Run.modifyEnv change machine = .ok () { machine with env := change machine.env } := rfl

def unlessInterrupted {Result : Type} (action : Run Result) : Run Result := fun machine =>
  if machine.store.interrupted then .error .interrupted machine else action machine

theorem unless_interrupted_clear {Result : Type} (action : Run Result) {machine : Machine}
    (clear : machine.store.interrupted = false) :
    unlessInterrupted action machine = action machine := by
  simp [unlessInterrupted, clear]

theorem unless_interrupted_set {Result : Type} (action : Run Result) {machine : Machine}
    (set : machine.store.interrupted = true) :
    unlessInterrupted action machine = .error .interrupted machine := by
  simp [unlessInterrupted, set]

theorem unless_interrupted_bind {Item Result : Type} (action : Run Item)
    (next : Item → Run Result) :
    (unlessInterrupted action >>= next) = unlessInterrupted (action >>= next) := by
  funext machine
  rw [bind_apply]
  cases flag : machine.store.interrupted with
  | true => rw [unless_interrupted_set _ flag, unless_interrupted_set _ flag]
  | false =>
      rw [unless_interrupted_clear _ flag, unless_interrupted_clear _ flag, bind_apply]

theorem unless_interrupted_twice {Result : Type} (action : Run Result) :
    unlessInterrupted (unlessInterrupted action) = unlessInterrupted action := by
  funext machine
  unfold unlessInterrupted
  split <;> rfl

theorem unless_interrupted_ok {Result : Type} {action : Run Result} {machine after : Machine}
    {result : Result} (done : unlessInterrupted action machine = .ok result after) :
    machine.store.interrupted = false ∧ action machine = .ok result after := by
  unfold unlessInterrupted at done
  split at done
  · cases done
  · rename_i clear
    exact ⟨by simpa using clear, done⟩

theorem check_interrupt_bind {Result : Type} (action : Unit → Run Result) :
    (checkInterrupt >>= action) = unlessInterrupted (action ()) := by
  funext machine
  cases flag : machine.store.interrupted <;>
    simp [bind_apply, checkInterrupt, unlessInterrupted, flag, get_apply, throw_apply, pure_apply]

namespace Environment

/-- What reading a variable at a position comes to. -/
def read (env : Environment) (name : String) (position : Position) : Except EvalError Value :=
  match env.get? name with
  | some value => .ok value
  | none => .error (.undefinedVariable name position)

end Environment

def readVariable (name : String) (position : Position) : Run Value := fun machine =>
  Run.ofExcept (machine.env.read name position) machine

section Nodes

variable (context : Context) (run : Tree → Run Value) (position : Position) (optimized : Bool)
  (facts : Facts) (children : List Tree)

def evaluateForm (form : SpecialForm) : Run Value :=
  match form with
  | .autoConcat | .sequence => evaluateSequence context run .void children
  | .conditional | .choice => evaluateBranches context run children
  | .procedure => evaluateDefinition context run position children
  | .assignment => evaluateAssignment context run position children
  | .returning => do
      let value ← evaluateSequence context run .void children
      throw (.returned value)
  | .closure => do
      let params ← evaluateParams context run children
      captureClosure params (bodyOf children) position
  | .execution => do
      let values ← evaluateAll context run children
      callValue context run position values

/-- What a call of a procedure does. The procedure is looked up before its arguments are
evaluated. -/
def evaluateCall (name : String) : Run Value := fun machine =>
  match machine.env.procedure? name with
  | some procedure =>
      (evaluateAll context run children >>= callProcedure context run procedure) machine
  | none => .error (.undefinedProcedure name position) machine

theorem evaluate_literal (value : Value) :
    evaluate context run ⟨.literal value, position, optimized, facts, children⟩ =
      unlessInterrupted (pure value) := by
  simp only [evaluate]
  rw [check_interrupt_bind]

theorem evaluate_variable (name : String) :
    evaluate context run ⟨.variable name, position, optimized, facts, children⟩ =
      unlessInterrupted (readVariable name position) := by
  simp only [evaluate]
  rw [check_interrupt_bind]
  congr 1
  funext machine
  unfold readVariable Environment.read
  cases found : machine.env.get? name <;>
    simp [bind_apply, get_apply, found, pure_apply, throw_apply, Run.ofExcept]

theorem evaluate_literal_ok {value value' : Value} {before after : Machine}
    (done : evaluate context run ⟨.literal value, position, optimized, facts, children⟩ before =
      .ok value' after) : value' = value ∧ after = before := by
  rw [evaluate_literal] at done
  cases (unless_interrupted_ok done).2
  exact ⟨rfl, rfl⟩

variable {name : String}

theorem evaluate_form {form : SpecialForm} (special : SpecialForm.ofName? name = some form)
    (accepted : form.arity.accepts children.length = true) :
    evaluate context run ⟨.call name, position, optimized, facts, children⟩ =
      unlessInterrupted (evaluateForm context run position children form) := by
  simp only [evaluate, special, accepted, if_true]
  rw [check_interrupt_bind]
  cases form <;> rfl

theorem evaluate_sequence_node {form : SpecialForm}
    (special : SpecialForm.ofName? name = some form) (isSeq : form.isSequence = true) :
    evaluate context run ⟨.call name, position, optimized, facts, children⟩ =
      unlessInterrupted (evaluateSequence context run .void children) := by
  cases form with
  | autoConcat | sequence =>
      exact evaluate_form context run position optimized facts children special
        (by simp [SpecialForm.arity])
  | _ => cases isSeq

theorem evaluate_branch_node {form : SpecialForm}
    (special : SpecialForm.ofName? name = some form)
    (branching : form = .conditional ∨ form = .choice)
    (accepted : form.arity.accepts children.length = true) :
    evaluate context run ⟨.call name, position, optimized, facts, children⟩ =
      unlessInterrupted (evaluateBranches context run children) := by
  rw [evaluate_form context run position optimized facts children special accepted]
  rcases branching with rfl | rfl <;> rfl

theorem evaluate_mismatch {form : SpecialForm} (special : SpecialForm.ofName? name = some form)
    (refused : form.arity.accepts children.length = false) :
    evaluate context run ⟨.call name, position, optimized, facts, children⟩ =
      unlessInterrupted (throw (.arityMismatch name form.arity children.length position)) := by
  simp only [evaluate, special, refused]
  rw [check_interrupt_bind]
  rfl

theorem evaluate_call (plain : SpecialForm.ofName? name = none)
    (named : Tree.isProcedureName name = true) :
    evaluate context run ⟨.call name, position, optimized, facts, children⟩ =
      unlessInterrupted (evaluateCall context run position children name) := by
  simp only [evaluate, plain, named, if_true]
  rw [check_interrupt_bind]
  congr 1
  funext machine
  unfold evaluateCall
  cases found : machine.env.procedure? name <;>
    simp [bind_apply, get_apply, found, throw_apply]

theorem evaluate_call_found {machine : Machine} {procedure : Procedure}
    (found : machine.env.procedure? name = some procedure) :
    evaluateCall context run position children name machine =
      (evaluateAll context run children >>= callProcedure context run procedure) machine := by
  simp only [evaluateCall, found]

theorem evaluate_call_missing {machine : Machine}
    (missing : machine.env.procedure? name = none) :
    evaluateCall context run position children name machine =
      .error (.undefinedProcedure name position) machine := by
  simp only [evaluateCall, missing]

theorem evaluate_builtin {builtin : Builtin} (plain : SpecialForm.ofName? name = none)
    (named : Tree.isProcedureName name = false)
    (found : context.registry.find? name = some builtin) :
    evaluate context run ⟨.call name, position, optimized, facts, children⟩ =
      unlessInterrupted
        (evaluateAll context run children >>= callBuiltin context builtin name position) := by
  simp only [evaluate, plain, named, found]
  rw [check_interrupt_bind]
  rfl

theorem evaluate_unknown (plain : SpecialForm.ofName? name = none)
    (named : Tree.isProcedureName name = false) (missing : context.registry.find? name = none) :
    evaluate context run ⟨.call name, position, optimized, facts, children⟩ =
      unlessInterrupted (throw (.unknownFunction name position)) := by
  simp only [evaluate, plain, named, missing]
  rw [check_interrupt_bind]
  rfl

/-- A parameter with a default is written as an assignment. -/
theorem evaluate_param_assigned (name : String) (position' : Position) (optimized' : Bool)
    (facts' : Facts) (children' : List Tree) (expression : Tree) (rest : List Tree) :
    evaluateParam context run ⟨.call SpecialForm.assignment.name, position, optimized, facts,
        ⟨.variable name, position', optimized', facts', children'⟩ :: expression :: rest⟩ =
      (evaluate context run expression >>= fun value => pure ⟨name, value⟩) := by
  simp only [evaluateParam]
  exact if_pos (SpecialForm.ofName?_name .assignment)

theorem evaluate_param_malformed {node : Tree} (shape : node.parameter? = none) :
    evaluateParam context run node =
      fun machine => .error (.typeError (.parameter node.text) node.position) machine := by
  rw [evaluateParam.eq_def]
  split
  · cases shape
  · rename_i payload place settled noted target position' optimized' facts' children' expression
      rest differs
    simp only
    split
    · rename_i special
      cases payload <;> simp_all [Tree.parameter?, Tree.specialForm?, Tree.functionName?,
        Payload.functionName?]
    · rfl
  · rfl

/-- A definition that succeeds puts its procedure in place of any other of that name. -/
theorem evaluate_definition_ok {nameNode : Tree} {rest : List Tree} {before after : Machine}
    {value : Value}
    (done : evaluateDefinition context run position (nameNode :: rest) before =
      .ok value after) :
    ∃ name params between,
      nameNode.procedureName?.filter Tree.isProcedureName = some name ∧
      evaluateParams context run rest before = .ok params between ∧ value = .void ∧
      after = { between with
        env := between.env.define ⟨name, params, bodyOf rest, position⟩ } := by
  simp only [evaluateDefinition] at done
  rcases bind_eq_ok done with ⟨name, start, found, done⟩
  rcases bind_eq_ok done with ⟨params, between, evaluated, done⟩
  rw [bind_apply, modify_env_apply] at done
  cases done
  unfold definedName at found
  cases given : nameNode.procedureName?.filter Tree.isProcedureName with
  | none =>
      rw [given] at found
      cases found
  | some name' =>
      rw [given] at found
      cases found
      exact ⟨name, params, between, rfl, evaluated, rfl, rfl⟩

theorem evaluate_sequence_single (last : Value) (tree : Tree) :
    evaluateSequence context run last [tree] = evaluate context run tree := by
  funext machine
  simp only [evaluateSequence]
  rw [bind_apply]
  cases evaluate context run tree machine <;> rfl

/-- Every node looks at the flag first. -/
theorem evaluate_checked (node : Tree) :
    unlessInterrupted (evaluate context run node) = evaluate context run node := by
  rcases node with ⟨payload, place, settled, noted, nodes⟩
  cases payload with
  | literal value => rw [evaluate_literal, unless_interrupted_twice]
  | «variable» name => rw [evaluate_variable, unless_interrupted_twice]
  | call name =>
      cases special : SpecialForm.ofName? name with
      | some form =>
          cases accepted : form.arity.accepts nodes.length with
          | true =>
              rw [evaluate_form context run _ _ _ _ special accepted, unless_interrupted_twice]
          | false =>
              rw [evaluate_mismatch context run _ _ _ _ special accepted,
                unless_interrupted_twice]
      | none =>
          cases named : Tree.isProcedureName name with
          | true =>
              rw [evaluate_call context run _ _ _ _ special named, unless_interrupted_twice]
          | false =>
              cases found : context.registry.find? name with
              | some builtin =>
                  rw [evaluate_builtin context run _ _ _ _ special named found,
                    unless_interrupted_twice]
              | none =>
                  rw [evaluate_unknown context run _ _ _ _ special named found,
                    unless_interrupted_twice]

theorem clear_of_evaluate_ok {node : Tree} {machine after : Machine} {value : Value}
    (done : evaluate context run node machine = .ok value after) :
    machine.store.interrupted = false := by
  rw [← evaluate_checked] at done
  exact (unless_interrupted_ok done).1

end Nodes

section Builtins

variable {context : Context} {builtin : Builtin} {name : String} {position : Position}
  {arguments : List Value}

theorem call_builtin_accepted (accepted : builtin.arity.accepts arguments.length = true)
    (machine : Machine) :
    callBuiltin context builtin name position arguments machine =
      match builtin.run ⟨position, some machine.env, context.registry.catalogue⟩ arguments
          machine.store with
      | .ok value store => .ok value { machine with store }
      | .error fault store => .error (.builtin name fault position) { machine with store } :=
  congrFun (if_pos accepted) machine

theorem call_builtin_refused (refused : builtin.arity.accepts arguments.length = false)
    (machine : Machine) :
    callBuiltin context builtin name position arguments machine =
      .error (.arityMismatch name builtin.arity arguments.length position) machine :=
  congrFun (if_neg (by simp [refused])) machine

end Builtins

def finalMachine {Result : Type} : EStateM.Result EvalError Machine Result → Machine
  | .ok _ after => after
  | .error _ after => after

def KeepsEnvironment {Result : Type} (action : Run Result) : Prop :=
  ∀ machine, (finalMachine (action machine)).env = machine.env

namespace KeepsEnvironment

variable {Item Result : Type}

theorem of_ok {action : Run Result} (keeps : KeepsEnvironment action) {machine after : Machine}
    {result : Result} (done : action machine = .ok result after) : after.env = machine.env := by
  have final := keeps machine
  rw [done] at final
  exact final

theorem bind {action : Run Item} {next : Item → Run Result} (keeps : KeepsEnvironment action)
    (keepsNext : ∀ item, KeepsEnvironment (next item)) : KeepsEnvironment (action >>= next) := by
  intro machine
  have first := keeps machine
  rw [bind_apply]
  cases outcome : action machine with
  | ok item between =>
      rw [outcome] at first
      exact (keepsNext item between).trans first
  | error failure between =>
      rw [outcome] at first
      exact first

theorem of_except (result : Except EvalError Result) : KeepsEnvironment (Run.ofExcept result) := by
  intro machine
  cases result <;> rfl

theorem copying (action : EStateM CopyError Store Result) :
    KeepsEnvironment (Run.copying action) := by
  intro machine
  unfold Run.copying
  cases action machine.store <;> rfl

theorem run_body (run : Tree → Run Value) (scope : Environment) (body : Tree) :
    KeepsEnvironment (runBody run scope body) := by
  intro machine
  unfold runBody
  split <;> rfl

theorem invoke (context : Context) (run : Tree → Run Value) (params : List Param) (body : Tree)
    (arguments : List Value) (scope : Environment) :
    KeepsEnvironment (invoke context run params body arguments scope) := by
  apply bind (of_except _)
  intro entered
  apply bind (copying _)
  intro bound
  exact run_body run bound body

theorem call_procedure (context : Context) (run : Tree → Run Value) (procedure : Procedure)
    (arguments : List Value) : KeepsEnvironment (callProcedure context run procedure arguments) :=
  fun machine => invoke context run _ _ arguments machine.env.procedureScope machine

theorem call_closure (context : Context) (run : Tree → Run Value) (closure : Closure)
    (arguments : List Value) (depth : Nat) :
    KeepsEnvironment (callClosure context run closure arguments depth) := by
  intro machine
  have keeps : KeepsEnvironment
      (Run.copying (Store.copying (machine.store.environmentOf closure).copy) >>= fun scope =>
        TreeScript.invoke context run closure.params closure.body arguments { scope with depth }) :=
    bind (copying _) fun scope => invoke context run _ _ arguments _
  exact keeps machine

theorem call_value (context : Context) (run : Tree → Run Value) (position : Position)
    (values : List Value) : KeepsEnvironment (callValue context run position values) := by
  intro machine
  unfold callValue
  cases values.getLast?.getD .void with
  | closure closure => exact call_closure context run closure _ machine.env.depth machine
  | _ => rfl

theorem call_builtin (context : Context) (builtin : Builtin) (name : String) (position : Position)
    (arguments : List Value) :
    KeepsEnvironment (callBuiltin context builtin name position arguments) := by
  intro machine
  cases accepted : builtin.arity.accepts arguments.length with
  | true =>
      rw [call_builtin_accepted accepted]
      split <;> rfl
  | false =>
      rw [call_builtin_refused accepted]
      rfl

theorem capture_closure (params : List Param) (body : Tree) (position : Position) :
    KeepsEnvironment (captureClosure params body position) := by
  intro machine
  have keeps : KeepsEnvironment
      (Run.copying (Store.newClosure params body position machine.env) >>= fun closure =>
        pure (Value.closure closure)) :=
    bind (copying _) fun closure _ => rfl
  exact keeps machine

end KeepsEnvironment

namespace Environment

variable {scope bound : Environment} {fresh fresh' : Nat}

theorem enter_call_ok {limit : Nat} (done : scope.enterCall limit = .ok bound) :
    scope.depth < limit ∧ bound = { scope with depth := scope.depth + 1 } := by
  unfold enterCall at done
  split at done
  · cases done
  · rename_i below
    cases done
    exact ⟨Nat.lt_of_not_le below, rfl⟩

theorem bind_params_scope {params : List Param} {arguments : List Value}
    (done : bindParams params arguments scope fresh = .ok bound fresh') :
    bound = { scope with vars := bound.vars } := by
  induction params generalizing arguments scope fresh with
  | nil =>
      rw [bindParams] at done
      cases done
      rfl
  | cons param params induction =>
      cases arguments with
      | nil =>
          rw [bindParams] at done
          rcases bind_eq_ok done with ⟨value, between, -, rest⟩
          exact (induction rest :)
      | cons argument arguments =>
          rw [bindParams] at done
          exact (induction done :)

theorem bind_arguments_scope {params : List Param} {arguments : List Value}
    (done : bindArguments params arguments scope fresh = .ok bound fresh') :
    bound = { scope with vars := bound.vars } := by
  unfold bindArguments at done
  rcases bind_eq_ok done with ⟨entered, between, first, made⟩
  cases made
  exact congrArg (·.set argumentsVariable (.array arguments)) (bind_params_scope first)

end Environment

theorem eval_apply (context : Context) (tree : Tree) (machine : Machine) :
    tree.eval context machine =
      evaluate context (bodyRunner context (context.maxDepth - machine.env.depth)) tree
        machine := rfl

end TreeScript
