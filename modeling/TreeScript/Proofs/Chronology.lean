import TreeScript.Proofs.Standard
/-!
# How evaluation moves the store on

An evaluation changes the store in three ways: it gives out identities, it adds what a closure has
captured, and it calls functions. An order of stores that all three follow is followed by every
evaluation, whether it succeeds or fails.
-/

namespace TreeScript

set_option autoImplicit false

section Actions

variable {Failure State Item Result : Type} {earlier : State → State → Prop}

/-- The action leaves a later state behind, whichever way it ends. -/
def Forward (earlier : State → State → Prop) (action : EStateM Failure State Item) : Prop :=
  ∀ state, match action state with
    | .ok _ after | .error _ after => earlier state after

namespace Forward

theorem of_ok {action : EStateM Failure State Item} (forward : Forward earlier action)
    {state after : State} {item : Item} (done : action state = .ok item after) :
    earlier state after := by
  have moved := forward state
  rw [done] at moved
  exact moved

theorem of_error {action : EStateM Failure State Item} (forward : Forward earlier action)
    {state after : State} {failure : Failure} (done : action state = .error failure after) :
    earlier state after := by
  have moved := forward state
  rw [done] at moved
  exact moved

theorem pure (refl : ∀ state, earlier state state) (item : Item) :
    Forward earlier (Pure.pure item : EStateM Failure State Item) :=
  refl

theorem bind (trans : ∀ first second third, earlier first second → earlier second third →
    earlier first third) {action : EStateM Failure State Item}
    {next : Item → EStateM Failure State Result} (first : Forward earlier action)
    (others : ∀ item, Forward earlier (next item)) : Forward earlier (action >>= next) := by
  intro state
  have begun := first state
  rw [bind_apply]
  cases outcome : action state with
  | error failure between =>
      rw [outcome] at begun
      exact begun
  | ok item between =>
      rw [outcome] at begun
      have ended := others item between
      dsimp only
      cases outcome' : next item between <;>
        · rw [outcome'] at ended
          exact trans _ _ _ begun ended

end Forward

end Actions

section Copies

abbrev Counts {Item : Type} (action : Copying Item) : Prop := Forward (· ≤ ·) action

theorem counts_pure {Item : Type} (item : Item) : Counts (pure item) := .pure Nat.le_refl item

theorem counts_bind {Item Result : Type} {action : Copying Item} {next : Item → Copying Result}
    (first : Counts action) (others : ∀ item, Counts (next item)) : Counts (action >>= next) := by
  refine Forward.bind ?_ first others
  exact fun _ _ _ => Nat.le_trans

theorem duplicate_counts (handle : Resource) : Counts handle.duplicate := by
  intro fresh
  unfold Resource.duplicate
  cases handle.duplicate? fresh with
  | some copied => exact Nat.le_succ fresh
  | none => exact Nat.le_refl fresh

mutual

theorem Value.copy_counts : (value : Value) → Counts value.copy
  | void | null | bool _ | int _ | double _ | string _ | closure _ => counts_pure _
  | resource handle => by
      rw [Value.copy]
      exact counts_bind (duplicate_counts handle) fun copied => counts_pure _
  | array items => by
      rw [Value.copy]
      split
      · exact counts_bind (copy_items_counts items) fun copied => counts_pure _
      · exact counts_pure _

theorem Value.copy_items_counts : (items : List Value) → Counts (copyItems items)
  | [] => counts_pure _
  | item :: rest => by
      rw [copyItems]
      exact counts_bind (copy_counts item) fun copied =>
        counts_bind (copy_items_counts rest) fun others => counts_pure _

end

theorem copy_entries_counts (entries : List (String × Value)) : Counts (copyEntries entries) := by
  induction entries with
  | nil => exact counts_pure _
  | cons entry rest induction =>
      rw [copyEntries]
      exact counts_bind entry.2.copy_counts fun copied =>
        counts_bind induction fun others => counts_pure _

theorem Environment.copy_counts (env : Environment) : Counts env.copy :=
  counts_bind (copy_entries_counts env.vars.entries) fun _ => counts_pure _

theorem bind_params_counts (params : List Param) (arguments : List Value) (scope : Environment) :
    Counts (Environment.bindParams params arguments scope) := by
  induction params generalizing arguments scope with
  | nil =>
      rw [Environment.bindParams]
      exact counts_pure _
  | cons param params induction =>
      cases arguments with
      | cons argument arguments =>
          rw [Environment.bindParams]
          exact induction arguments _
      | nil =>
          rw [Environment.bindParams]
          exact counts_bind param.default.copy_counts fun value => induction [] _

theorem bind_arguments_counts (params : List Param) (arguments : List Value)
    (scope : Environment) : Counts (Environment.bindArguments params arguments scope) :=
  counts_bind (bind_params_counts params arguments scope) fun _ => counts_pure _

end Copies

/-- An order of stores that everything follows which an evaluation does to the store. -/
structure Chronology (registry : Registry) (earlier : Store → Store → Prop) : Prop where
  refl : ∀ store, earlier store store
  trans : ∀ {first second third}, earlier first second → earlier second third →
    earlier first third
  numbers : ∀ (store : Store) fresh, store.resources ≤ fresh →
    earlier store { store with resources := fresh }
  captures : ∀ (store : Store) env,
    earlier store { store with captured := store.captured.push env }
  calls : ∀ name builtin, registry.find? name = some builtin → ∀ site arguments,
    Forward earlier (builtin.run site arguments)

abbrev MovesOn {Result : Type} (earlier : Store → Store → Prop) (action : Run Result) : Prop :=
  Forward (fun machine after : Machine => earlier machine.store after.store) action

section Evaluation

variable {context : Context} {earlier : Store → Store → Prop}
  (chronology : Chronology context.registry earlier) {Item Result : Type}

namespace Chronology

include chronology

theorem pure (item : Item) : MovesOn earlier (Pure.pure item : Run Item) :=
  fun machine => chronology.refl machine.store

theorem throw (error : EvalError) : MovesOn earlier (MonadExcept.throw error : Run Item) :=
  fun machine => chronology.refl machine.store

theorem bind {action : Run Item} {next : Item → Run Result} (first : MovesOn earlier action)
    (others : ∀ item, MovesOn earlier (next item)) : MovesOn earlier (action >>= next) := by
  refine Forward.bind ?_ first others
  exact fun _ _ _ => chronology.trans

theorem unless_interrupted {action : Run Item} (moves : MovesOn earlier action) :
    MovesOn earlier (unlessInterrupted action) := by
  intro machine
  cases flag : machine.store.interrupted with
  | true =>
      rw [unless_interrupted_set _ flag]
      exact chronology.refl _
  | false =>
      rw [unless_interrupted_clear _ flag]
      exact moves machine

theorem of_except (result : Except EvalError Item) : MovesOn earlier (Run.ofExcept result) := by
  intro machine
  cases result <;> exact chronology.refl _

theorem modify_env (change : Environment → Environment) :
    MovesOn earlier (Run.modifyEnv change) :=
  fun _ => chronology.refl _

theorem copying {action : Copying Item} (counts : Counts action) :
    MovesOn earlier (Run.copying (Store.copying action)) := by
  intro machine
  have counted := counts machine.store.resources
  rw [copying_apply]
  cases outcome : action machine.store.resources <;>
    · rw [outcome] at counted
      exact chronology.numbers _ _ counted

theorem capture_closure (params : List Param) (body : Tree) (position : Position) :
    MovesOn earlier (captureClosure params body position) := by
  intro machine
  have counted := machine.env.copy_counts machine.store.resources
  rw [capture_closure_apply]
  cases outcome : machine.env.copy machine.store.resources with
  | ok env fresh =>
      rw [outcome] at counted
      exact chronology.trans (chronology.numbers _ fresh counted) (chronology.captures _ env)
  | error error fresh =>
      rw [outcome] at counted
      exact chronology.numbers _ _ counted

theorem call_builtin {name : String} {builtin : Builtin}
    (found : context.registry.find? name = some builtin) (position : Position)
    (arguments : List Value) :
    MovesOn earlier (callBuiltin context builtin name position arguments) := by
  intro machine
  cases accepted : builtin.arity.accepts arguments.length with
  | false =>
      rw [call_builtin_refused accepted]
      exact chronology.refl _
  | true =>
      rw [call_builtin_accepted accepted]
      have moved := chronology.calls name builtin found
        ⟨position, some machine.env, context.registry.catalogue⟩ arguments machine.store
      cases outcome : builtin.run ⟨position, some machine.env, context.registry.catalogue⟩
        arguments machine.store <;>
        · rw [outcome] at moved
          exact moved

section Bodies

variable {run : Tree → Run Value} (runs : ∀ body, MovesOn earlier (run body))

include runs

omit chronology in
theorem run_body (scope : Environment) (body : Tree) :
    MovesOn earlier (runBody run scope body) := by
  intro machine
  have moved := runs body ⟨scope, machine.store⟩
  rw [run_body_apply]
  cases outcome : run body ⟨scope, machine.store⟩ with
  | ok value after =>
      rw [outcome] at moved
      exact moved
  | error error after =>
      rw [outcome] at moved
      cases error <;> exact moved

theorem invoke (params : List Param) (body : Tree) (arguments : List Value)
    (scope : Environment) : MovesOn earlier (invoke context run params body arguments scope) :=
  chronology.bind (chronology.of_except _) fun _ =>
    chronology.bind (chronology.copying (bind_arguments_counts _ _ _)) fun _ =>
      run_body runs _ _

theorem call_procedure (procedure : Procedure) (arguments : List Value) :
    MovesOn earlier (callProcedure context run procedure arguments) := fun machine =>
  chronology.invoke runs _ _ arguments machine.env.procedureScope machine

theorem call_closure (closure : Closure) (arguments : List Value) (depth : Nat) :
    MovesOn earlier (callClosure context run closure arguments depth) := fun machine =>
  chronology.bind (chronology.copying (machine.store.environmentOf closure).copy_counts)
    (fun scope => chronology.invoke runs closure.params closure.body arguments
      { scope with depth }) machine

theorem call_value (position : Position) (values : List Value) :
    MovesOn earlier (callValue context run position values) := by
  unfold callValue
  cases values.getLast?.getD .void with
  | closure closure =>
      exact fun machine => chronology.call_closure runs closure _ machine.env.depth machine
  | _ => exact chronology.throw _

end Bodies

section Nodes

variable {run : Tree → Run Value} {nodes : List Tree}

theorem evaluate_all (each : ∀ node ∈ nodes, MovesOn earlier (evaluate context run node)) :
    MovesOn earlier (evaluateAll context run nodes) := by
  induction nodes with
  | nil =>
      rw [evaluateAll]
      exact chronology.pure []
  | cons node rest induction =>
      rw [List.forall_mem_cons] at each
      rw [evaluateAll]
      exact chronology.bind each.1 fun value =>
        chronology.bind (induction each.2) fun values => chronology.pure _

theorem evaluate_sequence (each : ∀ node ∈ nodes, MovesOn earlier (evaluate context run node))
    (last : Value) : MovesOn earlier (evaluateSequence context run last nodes) := by
  induction nodes generalizing last with
  | nil =>
      rw [evaluateSequence]
      exact chronology.pure last
  | cons node rest induction =>
      rw [List.forall_mem_cons] at each
      rw [evaluateSequence]
      exact chronology.bind each.1 fun value => induction each.2 value

theorem evaluate_branches : (nodes : List Tree) →
    (∀ node ∈ nodes, MovesOn earlier (evaluate context run node)) →
    MovesOn earlier (evaluateBranches context run nodes)
  | [], _ => by
      rw [evaluateBranches]
      exact chronology.pure _
  | [otherwise], each => by
      rw [evaluateBranches]
      exact each otherwise List.mem_cons_self
  | condition :: branch :: rest, each => by
      rw [List.forall_mem_cons, List.forall_mem_cons] at each
      rw [evaluateBranches]
      refine chronology.bind each.1 fun decision => ?_
      split
      · exact each.2.1
      · exact evaluate_branches rest each.2.2

theorem evaluate_assignment (position : Position)
    (each : ∀ node ∈ nodes, MovesOn earlier (evaluate context run node)) :
    MovesOn earlier (evaluateAssignment context run position nodes) := by
  rw [evaluateAssignment.eq_def]
  split
  · rename_i name place settled noted below expression rest
    exact chronology.bind (each expression (by simp)) fun value =>
      chronology.bind (chronology.modify_env _) fun _ => chronology.pure _
  · exact chronology.throw _
  · exact chronology.pure _

theorem evaluate_param {param : Tree}
    (each : ∀ child ∈ param.children, MovesOn earlier (evaluate context run child)) :
    MovesOn earlier (evaluateParam context run param) := by
  cases shape : param.parameter? with
  | none =>
      rw [evaluate_param_malformed _ _ shape]
      exact chronology.throw _
  | some written =>
      obtain ⟨name, default⟩ := written
      obtain ⟨position, optimized, facts, children, rfl, rfl⟩ |
        ⟨position, optimized, facts, target, expression, rest, rfl, named, rfl⟩ :=
        Tree.parameter_eq_some shape
      · rw [evaluateParam]
        exact chronology.pure _
      · rcases target with ⟨payload, position', optimized', facts', children'⟩
        subst named
        rw [evaluate_param_assigned]
        exact chronology.bind (each expression (by simp)) fun value => chronology.pure _

theorem evaluate_params : (parts : List Tree) →
    (∀ part ∈ parts, part.Everywhere fun node => MovesOn earlier (evaluate context run node)) →
    MovesOn earlier (evaluateParams context run parts)
  | [], _ | [_], _ => by
      rw [evaluateParams]
      exact chronology.pure []
  | param :: next :: rest, each => by
      rw [List.forall_mem_cons] at each
      rw [evaluateParams]
      exact chronology.bind
        (chronology.evaluate_param fun child member => (each.1.inside child member).here)
        fun made => chronology.bind (evaluate_params (next :: rest) each.2) fun others =>
          chronology.pure _

theorem evaluate_definition (position : Position) (each : ∀ node ∈ nodes,
      node.Everywhere fun node => MovesOn earlier (evaluate context run node)) :
    MovesOn earlier (evaluateDefinition context run position nodes) := by
  cases nodes with
  | nil =>
      rw [evaluateDefinition]
      exact chronology.pure _
  | cons nameNode rest =>
      rw [List.forall_mem_cons] at each
      rw [evaluateDefinition]
      have named : MovesOn earlier (definedName position nameNode) := by
        unfold definedName
        split
        · exact chronology.pure _
        · exact chronology.throw _
      exact chronology.bind named fun name =>
        chronology.bind (chronology.evaluate_params rest each.2) fun params =>
          chronology.bind (chronology.modify_env _) fun _ => chronology.pure _

theorem evaluate_form (runs : ∀ body, MovesOn earlier (run body)) (position : Position)
    (each : ∀ node ∈ nodes,
      node.Everywhere fun node => MovesOn earlier (evaluate context run node))
    (form : SpecialForm) : MovesOn earlier (evaluateForm context run position nodes form) := by
  have below : ∀ node ∈ nodes, MovesOn earlier (evaluate context run node) :=
    fun node member => (each node member).here
  cases form with
  | autoConcat | sequence => exact chronology.evaluate_sequence below .void
  | conditional | choice => exact chronology.evaluate_branches nodes below
  | assignment => exact chronology.evaluate_assignment position below
  | procedure => exact chronology.evaluate_definition position each
  | returning =>
      exact chronology.bind (chronology.evaluate_sequence below .void) fun value =>
        chronology.throw _
  | closure =>
      exact chronology.bind (chronology.evaluate_params nodes each) fun params =>
        chronology.capture_closure params _ position
  | execution =>
      exact chronology.bind (chronology.evaluate_all below) fun values =>
        chronology.call_value runs position values

theorem evaluate (runs : ∀ body, MovesOn earlier (run body)) (tree : Tree) :
    tree.Everywhere fun node => MovesOn earlier (evaluate context run node) := by
  apply Tree.Everywhere.intro
  intro payload position optimized facts children induction
  have below : ∀ child ∈ children, MovesOn earlier (TreeScript.evaluate context run child) :=
    fun child member => (induction child member).here
  cases payload with
  | literal value =>
      rw [evaluate_literal]
      exact chronology.unless_interrupted (chronology.pure value)
  | «variable» name =>
      rw [evaluate_variable]
      refine chronology.unless_interrupted fun machine => ?_
      exact chronology.of_except (machine.env.read name position) machine
  | call name =>
      cases special : SpecialForm.ofName? name with
      | some form =>
          cases accepted : form.arity.accepts children.length with
          | true =>
              rw [TreeScript.evaluate_form _ _ _ _ _ _ special accepted]
              exact chronology.unless_interrupted
                (chronology.evaluate_form runs position induction form)
          | false =>
              rw [evaluate_mismatch _ _ _ _ _ _ special accepted]
              exact chronology.unless_interrupted (chronology.throw _)
      | none =>
          have arguments := chronology.evaluate_all below
          cases named : Tree.isProcedureName name with
          | true =>
              rw [evaluate_call _ _ _ _ _ _ special named]
              refine chronology.unless_interrupted fun machine => ?_
              cases found : machine.env.procedure? name with
              | none =>
                  rw [evaluate_call_missing _ _ _ _ found]
                  exact chronology.refl _
              | some procedure =>
                  rw [evaluate_call_found _ _ _ _ found]
                  exact chronology.bind arguments
                    (fun values => chronology.call_procedure runs procedure values) machine
          | false =>
              cases found : context.registry.find? name with
              | some builtin =>
                  rw [evaluate_builtin _ _ _ _ _ _ special named found]
                  exact chronology.unless_interrupted (chronology.bind arguments fun values =>
                    chronology.call_builtin found position values)
              | none =>
                  rw [evaluate_unknown _ _ _ _ _ _ special named found]
                  exact chronology.unless_interrupted (chronology.throw _)

end Nodes

theorem body_runner (calls : Nat) (body : Tree) :
    MovesOn earlier (bodyRunner context calls body) := by
  induction calls generalizing body with
  | zero => exact chronology.throw _
  | succ calls induction => exact (chronology.evaluate induction body).here

theorem reporting (reports : ∀ (store : Store) error, earlier store (store.report error))
    {action : Run Item} (moves : MovesOn earlier action) :
    MovesOn earlier (context.reporting action) := by
  intro machine
  unfold Context.reporting
  cases outcome : action machine with
  | ok item after => exact moves.of_ok outcome
  | error error after =>
      have moved := moves.of_error outcome
      dsimp only
      split
      · exact chronology.trans moved (reports _ error)
      · exact moved

theorem run (reports : ∀ (store : Store) error, earlier store (store.report error))
    (tree : Tree) : MovesOn earlier (tree.run context) := by
  refine chronology.reporting reports fun machine => ?_
  have moves := (chronology.evaluate (chronology.body_runner
    (context.maxDepth - machine.env.depth)) tree).here
  unfold Tree.execute
  rw [eval_apply]
  cases outcome : TreeScript.evaluate context
      (bodyRunner context (context.maxDepth - machine.env.depth)) tree machine with
  | ok value after => exact moves.of_ok outcome
  | error error after =>
      have moved := moves.of_error outcome
      cases error <;> exact moved

theorem call (reports : ∀ (store : Store) error, earlier store (store.report error))
    (closure : Closure) (arguments : List Value) :
    MovesOn earlier (closure.call context arguments) :=
  chronology.reporting reports
    (chronology.call_closure (chronology.body_runner context.maxDepth) closure arguments 0)

end Chronology

end Evaluation

end TreeScript
