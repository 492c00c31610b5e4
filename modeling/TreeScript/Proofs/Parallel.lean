import TreeScript.Proofs.Pairing
/-!
# Two runs of the same code

Code that runs on machines that are alike comes to results that are alike, on machines that are
alike again, and to the same errors. This is shown for copies of values, which give out identities
of resources, and for evaluation, which also gives out those of closures.
-/

namespace TreeScript

set_option autoImplicit false

section Actions

variable {Failure State Item Result : Type} {states : State → State → Prop}
  {failures : Failure → Failure → Prop} {like : Item → Item → Prop}
  {like' : Result → Result → Prop}

/-- Outcomes that correspond: results or failures that do, and the states left behind. -/
inductive Correspond (states : State → State → Prop) (failures : Failure → Failure → Prop)
    (like : Item → Item → Prop) :
    EStateM.Result Failure State Item → EStateM.Result Failure State Item → Prop where
  | ok {item item' : Item} {after after' : State} : like item item' → states after after' →
      Correspond states failures like (.ok item after) (.ok item' after')
  | error {failure failure' : Failure} {after after' : State} : failures failure failure' →
      states after after' →
      Correspond states failures like (.error failure after) (.error failure' after')

def Parallel (states : State → State → Prop) (failures : Failure → Failure → Prop)
    (like : Item → Item → Prop) (action action' : EStateM Failure State Item) : Prop :=
  ∀ state state', states state state' →
    Correspond states failures like (action state) (action' state')

namespace Parallel

theorem pure {item item' : Item} (related : like item item') :
    Parallel states failures like (Pure.pure item) (Pure.pure item') :=
  fun _ _ begun => .ok related begun

theorem throw {failure failure' : Failure} (related : failures failure failure') :
    Parallel states failures like (MonadExcept.throw failure) (MonadExcept.throw failure') :=
  fun _ _ begun => .error related begun

theorem bind {action action' : EStateM Failure State Item}
    {next next' : Item → EStateM Failure State Result}
    (first : Parallel states failures like action action')
    (others : ∀ item item', like item item' →
      Parallel states failures like' (next item) (next' item')) :
    Parallel states failures like' (action >>= next) (action' >>= next') := by
  intro state state' begun
  have outcomes := first state state' begun
  rw [bind_apply, bind_apply]
  generalize action state = outcome at outcomes
  generalize action' state' = outcome' at outcomes
  cases outcomes with
  | ok related between => exact others _ _ related _ _ between
  | error related between => exact .error related between

end Parallel

end Actions

section Copies

variable {pairing : Pairing}

abbrev Pairing.Copies (pairing : Pairing) {Item : Type} (like : Item → Item → Prop)
    (action action' : Copying Item) : Prop :=
  Parallel pairing.resources.Level Eq like action action'

theorem duplicate_parallel {handle handle' : Resource}
    (alike : (Value.resource handle).Alike pairing (.resource handle')) :
    pairing.Copies (fun copied copied' => (Value.resource copied).Alike pairing (.resource copied'))
      handle.duplicate handle'.duplicate := by
  intro fresh fresh' level
  cases alike with
  | basic isBasic => cases isBasic
  | resource typeName lineage pairs =>
      cases lineage with
      | last => exact .error rfl level
      | next after lineage => exact .ok (.resource after lineage (Or.inr level)) level.next
      | endless => exact .ok (.resource typeName .endless (Or.inr level)) level.next

theorem any_holds_resource {items items' : List Value}
    (each : List.Forall₂ (fun item item' => item.holdsResource = item'.holdsResource) items
      items') : Value.anyHoldsResource items = Value.anyHoldsResource items' := by
  induction each with
  | nil => rfl
  | cons first others induction =>
      rw [Value.anyHoldsResource, Value.anyHoldsResource, first, induction]

theorem Value.Alike.holds_resource {value value' : Value} (alike : value.Alike pairing value') :
    value.holdsResource = value'.holdsResource := by
  induction alike with
  | basic | resource | closure => rfl
  | array length each induction =>
      rw [Value.holdsResource, Value.holdsResource,
        any_holds_resource (List.forall₂_iff_zip.mpr ⟨length, induction⟩)]

theorem copy_items_parallel {items items' : List Value}
    (each : List.Forall₂ (fun item item' => pairing.Copies (Value.Alike pairing) item.copy
      item'.copy) items items') :
    pairing.Copies (ValuesAlike pairing) (Value.copyItems items) (Value.copyItems items') := by
  induction each with
  | nil =>
      rw [Value.copyItems]
      exact .pure .nil
  | cons first others induction =>
      rw [Value.copyItems, Value.copyItems]
      exact first.bind fun item item' copied => induction.bind fun rest rest' later =>
        .pure (.cons copied later)

theorem Value.Alike.copy {value value' : Value} (alike : value.Alike pairing value') :
    pairing.Copies (Value.Alike pairing) value.copy value'.copy := by
  induction alike with
  | @basic value isBasic =>
      cases value <;> first | exact fun _ _ level => .ok (.basic rfl) level | cases isBasic
  | resource typeName lineage pairs =>
      rw [Value.copy, Value.copy]
      exact (duplicate_parallel (.resource typeName lineage pairs)).bind
        fun copied copied' alike => .pure alike
  | @array items items' length each induction =>
      have whole : (Value.array items).Alike pairing (.array items') := .array length each
      have holding := whole.holds_resource
      rw [Value.holdsResource, Value.holdsResource] at holding
      rw [Value.copy, Value.copy, ← holding]
      cases Value.anyHoldsResource items with
      | true =>
          exact (copy_items_parallel (List.forall₂_iff_zip.mpr ⟨length, induction⟩)).bind
            fun copied copied' alike => .pure (.of_items alike)
      | false => exact .pure whole
  | closure position pairs names defaults stands =>
      exact fun _ _ level => .ok (.closure position pairs names defaults stands) level

theorem copy_entries_parallel {entries entries' : List (String × Value)}
    (alike : List.Forall₂ (fun entry entry' => entry.1 = entry'.1 ∧
      entry.2.Alike pairing entry'.2) entries entries') :
    pairing.Copies (List.Forall₂ fun entry entry' => entry.1 = entry'.1 ∧
      entry.2.Alike pairing entry'.2) (copyEntries entries) (copyEntries entries') := by
  induction alike with
  | nil => exact .pure .nil
  | @cons entry entry' rest rest' same others induction =>
      obtain ⟨name, value⟩ := entry
      obtain ⟨name', value'⟩ := entry'
      obtain ⟨rfl, related⟩ := same
      exact related.copy.bind fun item item' copied => induction.bind fun later later' alike =>
        .pure (.cons ⟨rfl, copied⟩ alike)

theorem Environment.Alike.copy {env env' : Environment} (alike : env.Alike pairing env') :
    pairing.Copies (Environment.Alike pairing) env.copy env'.copy :=
  (copy_entries_parallel alike.vars).bind fun _ _ copied =>
    .pure { alike with vars := copied }

theorem bind_params_parallel {params params' : List Param}
    (alike : ParamsAlike pairing params params') {arguments arguments' : List Value}
    (given : ValuesAlike pairing arguments arguments') {scope scope' : Environment}
    (scopes : scope.Alike pairing scope') :
    pairing.Copies (Environment.Alike pairing) (Environment.bindParams params arguments scope)
      (Environment.bindParams params' arguments' scope') := by
  induction alike generalizing arguments arguments' scope scope' with
  | nil => exact .pure scopes
  | @cons param param' params params' first others induction =>
      cases given with
      | cons argument later =>
          rw [Environment.bindParams, Environment.bindParams, ← first.name]
          exact induction later (scopes.set _ argument)
      | nil =>
          rw [Environment.bindParams, Environment.bindParams, ← first.name]
          exact first.default.copy.bind fun value value' copied =>
            induction .nil (scopes.set _ copied)

theorem bind_arguments_parallel {params params' : List Param}
    (alike : ParamsAlike pairing params params') {arguments arguments' : List Value}
    (given : ValuesAlike pairing arguments arguments') {scope scope' : Environment}
    (scopes : scope.Alike pairing scope') :
    pairing.Copies (Environment.Alike pairing) (Environment.bindArguments params arguments scope)
      (Environment.bindArguments params' arguments' scope') :=
  (bind_params_parallel alike given scopes).bind fun _ _ bound =>
    .pure (bound.set argumentsVariable (.of_items given))

end Copies

/-- Errors that are the same but for identities, which only a value on its way out can hold. -/
inductive EvalError.Alike (pairing : Pairing) : EvalError → EvalError → Prop where
  | returned {value value' : Value} : value.Alike pairing value' →
      Alike pairing (.returned value) (.returned value')
  | same {error : EvalError} : error.isReturn = false → Alike pairing error error

theorem EvalError.Alike.message {pairing : Pairing} {error error' : EvalError}
    (alike : error.Alike pairing error') : error.message = error'.message := by
  cases alike with
  | returned related =>
      unfold EvalError.message
      dsimp only
      rw [related.diagnostic]
  | same => rfl

/-- Machines with stores that are alike. What is asked of their environments is left open, since
a closure does not run in the environment of its caller. -/
structure Machine.Alike (pairing : Pairing) (envs : Environment → Environment → Prop)
    (machine machine' : Machine) : Prop where
  env : envs machine.env machine'.env
  store : machine.store.Alike pairing machine'.store

abbrev Pairing.Runs (pairing : Pairing) (envs : Environment → Environment → Prop) {Result : Type}
    (like : Result → Result → Prop) (action action' : Run Result) : Prop :=
  Parallel (Machine.Alike pairing envs) (EvalError.Alike pairing) like action action'

def Builtin.SteadyUnder (pairing : Pairing) (builtin : Builtin) : Prop :=
  ∀ position catalogue (env env' : Environment) arguments arguments',
    env.Alike pairing env' → ValuesAlike pairing arguments arguments' →
    Parallel (Store.Alike pairing) Eq (Value.Alike pairing)
      (builtin.run ⟨position, some env, catalogue⟩ arguments)
      (builtin.run ⟨position, some env', catalogue⟩ arguments')

def Registry.SteadyUnder (pairing : Pairing) (registry : Registry) : Prop :=
  ∀ name builtin, registry.find? name = some builtin → builtin.SteadyUnder pairing

section Runs

variable {pairing : Pairing} {envs : Environment → Environment → Prop} {Item : Type}
  {like : Item → Item → Prop}

theorem unless_interrupted_parallel {action action' : Run Item}
    (parallel : pairing.Runs envs like action action') :
    pairing.Runs envs like (unlessInterrupted action) (unlessInterrupted action') := by
  intro machine machine' begun
  unfold unlessInterrupted
  rw [← begun.store.interrupted]
  split
  · exact .error (.same rfl) begun
  · exact parallel machine machine' begun

theorem throw_parallel {error : EvalError} (other : error.isReturn = false) :
    pairing.Runs envs like (throw error) (throw error) :=
  .throw (.same other)

theorem copying_parallel {action action' : Copying Item}
    (parallel : pairing.Copies like action action') :
    pairing.Runs envs like (Run.copying (Store.copying action))
      (Run.copying (Store.copying action')) := by
  intro machine machine' begun
  have outcomes := parallel _ _ begun.store.resources
  rw [copying_apply, copying_apply]
  generalize action machine.store.resources = outcome at outcomes
  generalize action' machine'.store.resources = outcome' at outcomes
  cases outcomes with
  | ok related level => exact .ok related ⟨begun.env, begun.store.give_resources level⟩
  | error same level =>
      cases same
      exact .error (.same rfl) ⟨begun.env, begun.store.give_resources level⟩

theorem modify_env_parallel {change change' : Environment → Environment}
    (changes : ∀ env env', envs env env' → envs (change env) (change' env')) :
    pairing.Runs envs Eq (Run.modifyEnv change) (Run.modifyEnv change') :=
  fun _ _ begun => .ok rfl ⟨changes _ _ begun.env, begun.store⟩

theorem read_variable_parallel (name : String) (position : Position) :
    pairing.Runs (Environment.Alike pairing) (Value.Alike pairing) (readVariable name position)
      (readVariable name position) := by
  intro machine machine' begun
  have found := begun.env.vars.find name
  unfold readVariable Environment.read Environment.get?
  generalize machine.env.vars.find? name = value at found
  generalize machine'.env.vars.find? name = value' at found
  cases found with
  | none => exact .error (.same rfl) begun
  | some related => exact .ok related begun

theorem capture_parallel {params params' : List Param} {body : Tree}
    (alike : ParamsAlike pairing params params') (stands : body.Stands pairing)
    (position : Position) :
    pairing.Runs (Environment.Alike pairing) (Value.Alike pairing)
      (captureClosure params body position) (captureClosure params' body position) := by
  intro machine machine' begun
  have outcomes := begun.env.copy _ _ begun.store.resources
  rw [capture_closure_apply, capture_closure_apply]
  generalize machine.env.copy machine.store.resources = outcome at outcomes
  generalize machine'.env.copy machine'.store.resources = outcome' at outcomes
  cases outcomes with
  | ok captured level =>
      exact .ok (.of_closure position (Or.inr begun.store.closures) alike stands)
        ⟨begun.env, (begun.store.give_resources level).capture captured⟩
  | error same level =>
      cases same
      exact .error (.same rfl) ⟨begun.env, begun.store.give_resources level⟩

theorem call_builtin_parallel {context : Context} {builtin : Builtin}
    (steady : builtin.SteadyUnder pairing) (name : String) (position : Position)
    {arguments arguments' : List Value} (given : ValuesAlike pairing arguments arguments') :
    pairing.Runs (Environment.Alike pairing) (Value.Alike pairing)
      (callBuiltin context builtin name position arguments)
      (callBuiltin context builtin name position arguments') := by
  intro machine machine' begun
  have length := given.length_eq
  cases accepted : builtin.arity.accepts arguments.length with
  | false =>
      rw [call_builtin_refused accepted, call_builtin_refused (length ▸ accepted), length]
      exact .error (.same rfl) begun
  | true =>
      rw [call_builtin_accepted accepted, call_builtin_accepted (length ▸ accepted)]
      have outcomes := steady position context.registry.catalogue _ _ _ _ begun.env given _ _
        begun.store
      generalize builtin.run ⟨position, some machine.env, context.registry.catalogue⟩ arguments
        machine.store = outcome at outcomes
      generalize builtin.run ⟨position, some machine'.env, context.registry.catalogue⟩ arguments'
        machine'.store = outcome' at outcomes
      cases outcomes with
      | ok related store => exact .ok related ⟨begun.env, store⟩
      | error same store =>
          cases same
          exact .error (.same rfl) ⟨begun.env, store⟩

section Bodies

variable {context : Context} {run : Tree → Run Value}

def Pairing.RunsBodies (pairing : Pairing) (run : Tree → Run Value) : Prop :=
  ∀ body : Tree, body.Stands pairing →
    pairing.Runs (Environment.Alike pairing) (Value.Alike pairing) (run body) (run body)

variable (runs : pairing.RunsBodies run) {body : Tree} (stands : body.Stands pairing)
  {scope scope' : Environment} (scopes : scope.Alike pairing scope')

include runs stands scopes

theorem run_body_parallel :
    pairing.Runs envs (Value.Alike pairing) (runBody run scope body)
      (runBody run scope' body) := by
  intro machine machine' begun
  have outcomes := runs body stands ⟨scope, machine.store⟩ ⟨scope', machine'.store⟩
    ⟨scopes, begun.store⟩
  rw [run_body_apply, run_body_apply]
  generalize run body ⟨scope, machine.store⟩ = outcome at outcomes
  generalize run body ⟨scope', machine'.store⟩ = outcome' at outcomes
  cases outcomes with
  | ok related after => exact .ok .void ⟨begun.env, after.store⟩
  | error failed after =>
      cases failed with
      | returned related => exact .ok related ⟨begun.env, after.store⟩
      | same other =>
          rw [leave_body_error other, leave_body_error other]
          exact .error (.same other) ⟨begun.env, after.store⟩

variable {params params' : List Param} (alike : ParamsAlike pairing params params')
  {arguments arguments' : List Value} (given : ValuesAlike pairing arguments arguments')

include alike given

theorem invoke_parallel :
    pairing.Runs envs (Value.Alike pairing) (invoke context run params body arguments scope)
      (invoke context run params' body arguments' scope') := by
  have entered : pairing.Runs envs (Environment.Alike pairing)
      (Run.ofExcept (scope.enterCall context.maxDepth))
      (Run.ofExcept (scope'.enterCall context.maxDepth)) := by
    intro machine machine' begun
    unfold Environment.enterCall
    rw [← scopes.depth]
    split
    · exact .error (.same rfl) begun
    · exact .ok (scopes.at_depth _) begun
  exact entered.bind fun inner inner' inners =>
    (copying_parallel (bind_arguments_parallel alike given inners)).bind fun bound bound' bounds =>
      run_body_parallel runs stands bounds

omit scopes in
/-- A closure runs in what it has captured, whatever the environment of its caller. -/
theorem call_closure_parallel {identity identity' : Nat} (position : Position)
    (pairs : pairing.closures.Pairs identity identity') (depth : Nat) :
    pairing.Runs envs (Value.Alike pairing)
      (callClosure context run ⟨identity, params, body, position⟩ arguments depth)
      (callClosure context run ⟨identity', params', body, position⟩ arguments' depth) := by
  intro machine machine' begun
  have captured : (machine.store.environmentOf ⟨identity, params, body, position⟩).Alike pairing
      (machine'.store.environmentOf ⟨identity', params', body, position⟩) :=
    begun.store.environment_of pairs
  have called : pairing.Runs envs (Value.Alike pairing)
      (Run.copying (Store.copying
          (machine.store.environmentOf ⟨identity, params, body, position⟩).copy) >>= fun scope =>
        invoke context run params body arguments { scope with depth })
      (Run.copying (Store.copying
          (machine'.store.environmentOf ⟨identity', params', body, position⟩).copy) >>= fun scope =>
        invoke context run params' body arguments' { scope with depth }) :=
    (copying_parallel captured.copy).bind fun scope scope' scopes =>
      invoke_parallel runs stands (scopes.at_depth depth) alike given
  exact called machine machine' begun

end Bodies

variable {context : Context} {run : Tree → Run Value}

theorem call_procedure_parallel (runs : pairing.RunsBodies run) {procedure procedure' : Procedure}
    (alike : procedure.Alike pairing procedure') {arguments arguments' : List Value}
    (given : ValuesAlike pairing arguments arguments') :
    pairing.Runs (Environment.Alike pairing) (Value.Alike pairing)
      (callProcedure context run procedure arguments)
      (callProcedure context run procedure' arguments') := by
  intro machine machine' begun
  have called : pairing.Runs (Environment.Alike pairing) (Value.Alike pairing)
      (invoke context run procedure.params procedure.body arguments machine.env.procedureScope)
      (invoke context run procedure'.params procedure.body arguments'
        machine'.env.procedureScope) :=
    invoke_parallel runs alike.stands begun.env.procedure_scope alike.params given
  unfold callProcedure
  rw [← alike.body]
  exact called machine machine' begun

theorem last_alike {values values' : List Value} (alike : ValuesAlike pairing values values') :
    (values.getLast?.getD .void).Alike pairing (values'.getLast?.getD .void) := by
  induction alike with
  | nil => exact .void
  | cons first others induction =>
      cases others with
      | nil => exact first
      | cons => exact induction

theorem drop_last_alike {values values' : List Value}
    (alike : ValuesAlike pairing values values') :
    ValuesAlike pairing values.dropLast values'.dropLast := by
  rw [List.dropLast_eq_take, List.dropLast_eq_take, alike.length_eq]
  exact List.forall₂_take _ alike

theorem call_value_parallel (runs : pairing.RunsBodies run) (position : Position)
    {values values' : List Value} (alike : ValuesAlike pairing values values') :
    pairing.Runs (Environment.Alike pairing) (Value.Alike pairing)
      (callValue context run position values) (callValue context run position values') := by
  have last := last_alike alike
  have given := drop_last_alike alike
  unfold callValue
  generalize values.getLast?.getD .void = callee at last
  generalize values'.getLast?.getD .void = callee' at last
  cases callee with
  | closure callee =>
      obtain ⟨identity', params', rfl, pairs, params, stands⟩ := last.closure_cases
      intro machine machine' begun
      have called : pairing.Runs (Environment.Alike pairing) (Value.Alike pairing)
          (callClosure context run callee values.dropLast machine.env.depth)
          (callClosure context run ⟨identity', params', callee.body, callee.position⟩
            values'.dropLast machine'.env.depth) :=
        begun.env.depth ▸ call_closure_parallel runs stands params given callee.position pairs _
      exact called machine machine' begun
  | _ =>
      cases last with
      | _ => exact throw_parallel rfl

section Nodes

variable {nodes : List Tree}

def Tree.RunsParallel (pairing : Pairing) (context : Context) (run : Tree → Run Value)
    (node : Tree) : Prop :=
  node.Stands pairing → pairing.Runs (Environment.Alike pairing) (Value.Alike pairing)
    (evaluate context run node) (evaluate context run node)

theorem evaluate_all_parallel
    (each : ∀ node ∈ nodes, node.RunsParallel pairing context run)
    (stand : ∀ node ∈ nodes, node.Stands pairing) :
    pairing.Runs (Environment.Alike pairing) (ValuesAlike pairing)
      (evaluateAll context run nodes) (evaluateAll context run nodes) := by
  induction nodes with
  | nil =>
      rw [evaluateAll]
      exact .pure .nil
  | cons node rest induction =>
      rw [List.forall_mem_cons] at each stand
      rw [evaluateAll]
      exact (each.1 stand.1).bind fun value value' related =>
        (induction each.2 stand.2).bind fun values values' others => .pure (.cons related others)

theorem evaluate_sequence_parallel
    (each : ∀ node ∈ nodes, node.RunsParallel pairing context run)
    (stand : ∀ node ∈ nodes, node.Stands pairing) {last last' : Value}
    (related : last.Alike pairing last') :
    pairing.Runs (Environment.Alike pairing) (Value.Alike pairing)
      (evaluateSequence context run last nodes) (evaluateSequence context run last' nodes) := by
  induction nodes generalizing last last' with
  | nil =>
      rw [evaluateSequence, evaluateSequence]
      exact .pure related
  | cons node rest induction =>
      rw [List.forall_mem_cons] at each stand
      rw [evaluateSequence, evaluateSequence]
      exact (each.1 stand.1).bind fun value value' => induction each.2 stand.2

theorem evaluate_branches_parallel : (nodes : List Tree) →
    (∀ node ∈ nodes, node.RunsParallel pairing context run) →
    (∀ node ∈ nodes, node.Stands pairing) →
    pairing.Runs (Environment.Alike pairing) (Value.Alike pairing)
      (evaluateBranches context run nodes) (evaluateBranches context run nodes)
  | [], _, _ => by
      rw [evaluateBranches]
      exact .pure .void
  | [otherwise], each, stand => by
      rw [evaluateBranches]
      exact each otherwise List.mem_cons_self (stand otherwise List.mem_cons_self)
  | condition :: branch :: rest, each, stand => by
      rw [List.forall_mem_cons, List.forall_mem_cons] at each stand
      rw [evaluateBranches]
      refine (each.1 stand.1).bind fun decision decision' related => ?_
      rw [related.truthy]
      split
      · exact each.2.1 stand.2.1
      · exact evaluate_branches_parallel rest each.2.2 stand.2.2

theorem evaluate_assignment_parallel {position : Position}
    (each : ∀ node ∈ nodes, node.RunsParallel pairing context run)
    (stand : ∀ node ∈ nodes, node.Stands pairing) :
    pairing.Runs (Environment.Alike pairing) (Value.Alike pairing)
      (evaluateAssignment context run position nodes)
      (evaluateAssignment context run position nodes) := by
  rw [evaluateAssignment.eq_def]
  split
  · rename_i name place settled noted below expression rest
    have evaluated := each expression (by simp) (stand expression (by simp))
    refine evaluated.bind fun value value' related => ?_
    exact (modify_env_parallel fun env env' alike => alike.set name related).bind
      fun _ _ _ => .pure related
  · exact throw_parallel rfl
  · exact .pure .void

theorem evaluate_param_parallel {param : Tree}
    (each : ∀ child ∈ param.children, child.RunsParallel pairing context run)
    (stand : param.Stands pairing) :
    pairing.Runs (Environment.Alike pairing) (Param.Alike pairing)
      (evaluateParam context run param) (evaluateParam context run param) := by
  cases shape : param.parameter? with
  | none =>
      rw [evaluate_param_malformed _ _ shape]
      exact throw_parallel rfl
  | some written =>
      obtain ⟨name, default⟩ := written
      obtain ⟨position, optimized, facts, children, rfl, rfl⟩ |
        ⟨position, optimized, facts, target, expression, rest, rfl, named, rfl⟩ :=
        Tree.parameter_eq_some shape
      · rw [evaluateParam]
        exact .pure ⟨rfl, .basic rfl⟩
      · rcases target with ⟨payload, position', optimized', facts', children'⟩
        subst named
        have within := (Tree.stands_iff.mp stand).2 expression (by simp)
        rw [evaluate_param_assigned]
        exact (each expression (by simp) within).bind fun value value' related =>
          .pure ⟨rfl, related⟩

theorem evaluate_params_parallel : (parts : List Tree) →
    (∀ part ∈ parts, part.Everywhere (Tree.RunsParallel pairing context run)) →
    (∀ part ∈ parts, part.Stands pairing) →
    pairing.Runs (Environment.Alike pairing) (ParamsAlike pairing)
      (evaluateParams context run parts) (evaluateParams context run parts)
  | [], _, _ | [_], _, _ => by
      rw [evaluateParams]
      exact .pure .nil
  | param :: next :: rest, each, stand => by
      rw [List.forall_mem_cons] at each stand
      rw [evaluateParams]
      refine (evaluate_param_parallel (fun child member => (each.1.inside child member).here)
        stand.1).bind fun made made' related => ?_
      exact (evaluate_params_parallel (next :: rest) each.2 stand.2).bind
        fun params params' others => .pure (.cons related others)

theorem body_stands (stand : ∀ node ∈ nodes, node.Stands pairing) :
    (bodyOf nodes).Stands pairing := by
  unfold bodyOf
  cases last : nodes.getLast? with
  | none =>
      refine Tree.stands_iff.mpr ⟨fun value holds => ?_, nofun⟩
      cases holds
      exact .void
  | some body => exact stand body (List.mem_of_getLast? last)

theorem evaluate_definition_parallel {position : Position}
    (each : ∀ node ∈ nodes, node.Everywhere (Tree.RunsParallel pairing context run))
    (stand : ∀ node ∈ nodes, node.Stands pairing) :
    pairing.Runs (Environment.Alike pairing) (Value.Alike pairing)
      (evaluateDefinition context run position nodes)
      (evaluateDefinition context run position nodes) := by
  cases nodes with
  | nil =>
      rw [evaluateDefinition]
      exact .pure .void
  | cons nameNode rest =>
      rw [List.forall_mem_cons] at each stand
      rw [evaluateDefinition]
      have named : pairing.Runs (Environment.Alike pairing) Eq (definedName position nameNode)
          (definedName position nameNode) := by
        unfold definedName
        split
        · exact .pure rfl
        · exact throw_parallel rfl
      refine named.bind fun name name' same => ?_
      subst same
      refine (evaluate_params_parallel rest each.2 stand.2).bind fun params params' alike => ?_
      have defined : Procedure.Alike pairing ⟨name, params, bodyOf rest, position⟩
          ⟨name, params', bodyOf rest, position⟩ := ⟨rfl, alike, rfl, body_stands stand.2, rfl⟩
      exact (modify_env_parallel fun env env' envs => envs.define defined).bind
        fun _ _ _ => .pure .void

variable {children : List Tree}

theorem evaluate_form_parallel (runs : pairing.RunsBodies run) {position : Position}
    (each : ∀ child ∈ children, child.Everywhere (Tree.RunsParallel pairing context run))
    (stand : ∀ child ∈ children, child.Stands pairing) (form : SpecialForm) :
    pairing.Runs (Environment.Alike pairing) (Value.Alike pairing)
      (evaluateForm context run position children form)
      (evaluateForm context run position children form) := by
  have below : ∀ child ∈ children, child.RunsParallel pairing context run :=
    fun child member => (each child member).here
  cases form with
  | autoConcat | sequence => exact evaluate_sequence_parallel below stand .void
  | conditional | choice => exact evaluate_branches_parallel children below stand
  | assignment => exact evaluate_assignment_parallel below stand
  | procedure => exact evaluate_definition_parallel each stand
  | returning =>
      exact (evaluate_sequence_parallel below stand .void).bind fun value value' related =>
        .throw (.returned related)
  | closure =>
      exact (evaluate_params_parallel children each stand).bind fun params params' alike =>
        capture_parallel alike (body_stands stand) position
  | execution =>
      exact (evaluate_all_parallel below stand).bind fun values values' alike =>
        call_value_parallel runs position alike

/-- Every tree does the same in both runs if the values written in it stand for themselves, as far
as the bodies do that it runs. -/
theorem evaluate_parallel (steady : context.registry.SteadyUnder pairing)
    (runs : pairing.RunsBodies run) (tree : Tree) :
    tree.Everywhere (Tree.RunsParallel pairing context run) := by
  apply Tree.Everywhere.intro
  intro payload position optimized facts children induction stands
  obtain ⟨here, below⟩ := Tree.stands_iff.mp stands
  have each : ∀ child ∈ children, child.RunsParallel pairing context run :=
    fun child member => (induction child member).here
  cases payload with
  | literal value =>
      rw [evaluate_literal]
      exact unless_interrupted_parallel (.pure (here value rfl))
  | «variable» name =>
      rw [evaluate_variable]
      exact unless_interrupted_parallel (read_variable_parallel name position)
  | call name =>
      cases special : SpecialForm.ofName? name with
      | some form =>
          cases accepted : form.arity.accepts children.length with
          | true =>
              rw [evaluate_form _ _ _ _ _ _ special accepted]
              exact unless_interrupted_parallel (evaluate_form_parallel runs induction below form)
          | false =>
              rw [evaluate_mismatch _ _ _ _ _ _ special accepted]
              exact unless_interrupted_parallel (throw_parallel rfl)
      | none =>
          have arguments := evaluate_all_parallel each below
          cases named : Tree.isProcedureName name with
          | true =>
              rw [evaluate_call _ _ _ _ _ _ special named]
              refine unless_interrupted_parallel fun machine machine' begun => ?_
              have found := begun.env.procedures.find name
              unfold evaluateCall Environment.procedure?
              generalize machine.env.procedures.find? name = procedure at found
              generalize machine'.env.procedures.find? name = procedure' at found
              cases found with
              | none => exact .error (.same rfl) begun
              | some alike =>
                  exact arguments.bind (fun values values' given =>
                    call_procedure_parallel runs alike given) machine machine' begun
          | false =>
              cases found : context.registry.find? name with
              | some builtin =>
                  rw [evaluate_builtin _ _ _ _ _ _ special named found]
                  exact unless_interrupted_parallel (arguments.bind fun values values' given =>
                    call_builtin_parallel (steady name builtin found) name position given)
              | none =>
                  rw [evaluate_unknown _ _ _ _ _ _ special named found]
                  exact unless_interrupted_parallel (throw_parallel rfl)

theorem body_runner_parallel (steady : context.registry.SteadyUnder pairing) (calls : Nat) :
    pairing.RunsBodies (bodyRunner context calls) := by
  induction calls with
  | zero => exact fun body _ => throw_parallel rfl
  | succ calls induction =>
      exact fun body stands => (evaluate_parallel steady induction body).here stands

end Nodes

end Runs

theorem closure_call_parallel {pairing : Pairing} {envs : Environment → Environment → Prop}
    {context : Context} (steady : context.registry.SteadyUnder pairing) {closure : Closure}
    (alike : (Value.closure closure).Alike pairing (.closure closure))
    {arguments : List Value} (given : ValuesAlike pairing arguments arguments) :
    pairing.Runs envs (Value.Alike pairing) (closure.call context arguments)
      (closure.call context arguments) := by
  rcases closure with ⟨identity, params, body, position⟩
  obtain ⟨_, _, ⟨⟩, pairs, defaults, stands⟩ := alike.closure_cases
  intro machine machine' begun
  have outcomes : Correspond (Machine.Alike pairing envs) (EvalError.Alike pairing)
      (Value.Alike pairing)
      (Closure.execute context ⟨identity, params, body, position⟩ arguments machine)
      (Closure.execute context ⟨identity, params, body, position⟩ arguments machine') :=
    call_closure_parallel (body_runner_parallel steady context.maxDepth) stands defaults given
      position pairs 0 machine machine' begun
  unfold Closure.call Context.reporting
  generalize Closure.execute context _ arguments machine = outcome at outcomes
  generalize Closure.execute context _ arguments machine' = outcome' at outcomes
  cases outcomes with
  | ok related after => exact .ok related after
  | error failed after =>
      refine .error failed ?_
      split
      · refine ⟨after.env, { after.store with reports := ?_ }⟩
        unfold Store.report
        rw [failed.message]
        exact after.store.reports.push _
      · exact after

end TreeScript
