import TreeScript.Proofs.Checking
/-!
# Errors that an optimized script cannot run into

What has been checked stays checked wherever it is run. The bodies of procedures and closures are
parts of the script, so as long as every procedure and closure at hand was made by the script, every
body that is entered has been checked too. Which closures are at hand is only known as the script
goes on: at first there are none, and every closure that the script makes is one more.
-/

namespace TreeScript

set_option autoImplicit false

namespace EvalError

/-- The errors that the optimizer looks for: a function that is not registered, a wrong number of
arguments, an assignment to something else than a variable, and a procedure by another name than
procedures have. -/
def isForeseen : EvalError → Bool
  | unknownFunction _ _ | arityMismatch _ _ _ _ => true
  | typeError (.assignment _) _ | typeError (.procedureName _) _ => true
  | _ => false

end EvalError

namespace Code

/-- Code that has been checked, of the closures that are known. -/
def checked (registry : Registry) (known : Nat → Prop) : Code where
  closure closure := closure.body.Checked registry ∧ known closure.identity
  procedure procedure := procedure.body.Checked registry

end Code

/-- Once a closure is known it stays so. -/
def Later (known known' : Nat → Prop) : Prop := ∀ identity, known identity → known' identity

section Growth

variable {registry : Registry} {known known' : Nat → Prop}

theorem Later.checked (later : Later known known') (closure : Closure)
    (owned : (Code.checked registry known).closure closure) :
    (Code.checked registry known').closure closure :=
  ⟨owned.1, later _ owned.2⟩

theorem Value.Within.later {value : Value} (later : Later known known')
    (within : value.Within (.checked registry known)) : value.Within (.checked registry known') :=
  within.mono later.checked

theorem Later.defaults {params : List Param} (later : Later known known')
    (each : ∀ param ∈ params, param.default.Within (.checked registry known)) :
    ∀ param ∈ params, param.default.Within (.checked registry known') :=
  fun param member => (each param member).later later

theorem Later.values {values : List Value} (later : Later known known')
    (each : ∀ value ∈ values, value.Within (.checked registry known)) :
    ∀ value ∈ values, value.Within (.checked registry known') :=
  fun value member => (each value member).later later

theorem Environment.Within.later {env : Environment} (later : Later known known')
    (within : env.Within (.checked registry known)) : env.Within (.checked registry known') :=
  within.mono later.checked fun _ => id

end Growth

structure Machine.Within (registry : Registry) (known : Nat → Prop) (machine : Machine) :
    Prop where
  env : machine.env.Within (.checked registry known)
  store : machine.store.Backs (.checked registry known)

/-- A result that is good for the closures that are known by now, on a machine that is within the
code that has been checked. -/
def Reached {Result : Type} (registry : Registry) (known : Nat → Prop)
    (good : (Nat → Prop) → Result → Prop) (result : Result) (machine : Machine) : Prop :=
  ∃ known', Later known known' ∧ good known' result ∧ machine.Within registry known'

/-- An action that ends well or with an error that was not foreseen. What it gives back, also
through a `return`, is within the code that has been checked. -/
def Safe {Result : Type} (registry : Registry) (known : Nat → Prop)
    (good : (Nat → Prop) → Result → Prop) (action : Run Result) : Prop :=
  ∀ machine : Machine, machine.Within registry known →
    match action machine with
    | .ok result after => Reached registry known good result after
    | .error error after => error.isForeseen = false ∧ ∀ value, error = .returned value →
        Reached registry known (fun known => Value.Within (.checked registry known)) value after

abbrev SafeValue (registry : Registry) (known : Nat → Prop) (action : Run Value) : Prop :=
  Safe registry known (fun known => Value.Within (.checked registry known)) action

abbrev SafeParam (registry : Registry) (known : Nat → Prop) (action : Run Param) : Prop :=
  Safe registry known (fun known param => param.default.Within (.checked registry known)) action

namespace Reached

variable {Result : Type} {registry : Registry} {known known' : Nat → Prop}
  {good : (Nat → Prop) → Result → Prop} {result : Result} {machine : Machine}

theorem here (holds : good known result) (within : machine.Within registry known) :
    Reached registry known good result machine :=
  ⟨known, fun _ => id, holds, within⟩

theorem since (later : Later known known') (reached : Reached registry known' good result machine) :
    Reached registry known good result machine := by
  rcases reached with ⟨last, latest, holds, within⟩
  exact ⟨last, fun _ before => latest _ (later _ before), holds, within⟩

end Reached

namespace Safe

variable {Item Result : Type} {registry : Registry} {known : Nat → Prop}
  {good : (Nat → Prop) → Result → Prop} {machine after : Machine}

theorem of_ok {action : Run Result} (safe : Safe registry known good action)
    (within : machine.Within registry known) {result : Result}
    (done : action machine = .ok result after) : Reached registry known good result after := by
  have outcome := safe machine within
  rw [done] at outcome
  exact outcome

theorem of_error {action : Run Result} (safe : Safe registry known good action)
    (within : machine.Within registry known) {error : EvalError}
    (failed : action machine = .error error after) :
    error.isForeseen = false ∧ ∀ value, error = .returned value →
      Reached registry known (fun known => Value.Within (.checked registry known)) value after := by
  have outcome := safe machine within
  rw [failed] at outcome
  exact outcome

theorem pure {result : Result} (holds : good known result) :
    Safe registry known good (Pure.pure result) :=
  fun _ within => .here holds within

theorem throw {error : EvalError} (unforeseen : error.isForeseen = false)
    (stays : ∀ value, error ≠ .returned value) :
    Safe registry known good (MonadExcept.throw error) :=
  fun _ _ => ⟨unforeseen, fun value same => absurd same (stays value)⟩

theorem bind {middle : (Nat → Prop) → Item → Prop} {action : Run Item}
    {next : Item → Run Result} (first : Safe registry known middle action)
    (second : ∀ known', Later known known' → ∀ item, middle known' item →
      Safe registry known' good (next item)) :
    Safe registry known good (action >>= next) := by
  intro machine within
  rw [bind_apply]
  cases outcome : action machine with
  | error error between => exact first.of_error within outcome
  | ok item between =>
      rcases first.of_ok within outcome with ⟨known', later, holds, kept⟩
      have rest := second known' later item holds between kept
      dsimp only
      cases last : next item between with
      | ok result after =>
          rw [last] at rest
          exact rest.since later
      | error error after =>
          rw [last] at rest
          exact ⟨rest.1, fun value same => (rest.2 value same).since later⟩

theorem unless_interrupted {action : Run Result} (safe : Safe registry known good action) :
    Safe registry known good (unlessInterrupted action) := by
  intro machine within
  cases flag : machine.store.interrupted with
  | true =>
      rw [unless_interrupted_set _ flag]
      exact ⟨rfl, fun _ same => by cases same⟩
  | false =>
      rw [unless_interrupted_clear _ flag]
      exact safe machine within

theorem locally {action : Run Result}
    (here : ∀ machine : Machine, machine.Within registry known →
      ∃ action', Safe registry known good action' ∧ action machine = action' machine) :
    Safe registry known good action := by
  intro machine within
  rcases here machine within with ⟨action', safe, same⟩
  rw [same]
  exact safe machine within

theorem modify_env {change : Environment → Environment}
    (keeps : ∀ env, env.Within (.checked registry known) →
      (change env).Within (.checked registry known)) :
    Safe registry known (fun _ _ => True) (Run.modifyEnv change) :=
  fun machine within => .here trivial ⟨keeps machine.env within.env, within.store⟩

/-- A copy leaves what closures have captured as it is. -/
theorem copying {action : Copying Result}
    (copies : ∀ fresh result fresh', action fresh = .ok result fresh' → good known result) :
    Safe registry known good (Run.copying (Store.copying action)) := by
  intro machine within
  rw [copying_apply]
  cases outcome : action machine.store.resources with
  | ok result fresh => exact .here (copies _ _ _ outcome) ⟨within.env, within.store⟩
  | error error fresh => exact ⟨rfl, fun _ same => by cases same⟩

end Safe

section Bodies

variable {context : Context} {run : Tree → Run Value} {known : Nat → Prop}
  (bodies : ∀ (known : Nat → Prop) (body : Tree), body.Checked context.registry →
    SafeValue context.registry known (run body))

include bodies

theorem run_body_safe {scope : Environment} {body : Tree}
    (within : scope.Within (.checked context.registry known))
    (checked : body.Checked context.registry) :
    SafeValue context.registry known (runBody run scope body) := by
  intro machine outside
  have inside : (⟨scope, machine.store⟩ : Machine).Within context.registry known :=
    ⟨within, outside.store⟩
  unfold runBody
  cases outcome : run body ⟨scope, machine.store⟩ with
  | ok value after =>
      rcases (bodies known body checked).of_ok inside outcome with ⟨known', later, -, kept⟩
      exact ⟨known', later, .basic rfl, outside.env.later later, kept.store⟩
  | error error after =>
      rcases (bodies known body checked).of_error inside outcome with ⟨unforeseen, gives⟩
      cases error with
      | returned value =>
          rcases gives value rfl with ⟨known', later, given, kept⟩
          exact ⟨known', later, given, outside.env.later later, kept.store⟩
      | _ => exact ⟨unforeseen, fun _ same => by cases same⟩

theorem invoke_safe {params : List Param} {body : Tree} {arguments : List Value}
    {scope : Environment} (within : scope.Within (.checked context.registry known))
    (checked : body.Checked context.registry)
    (defaults : ∀ param ∈ params, param.default.Within (.checked context.registry known))
    (given : ∀ argument ∈ arguments, argument.Within (.checked context.registry known)) :
    SafeValue context.registry known
      (invoke context run params body arguments scope) := by
  have entering : Safe context.registry known
      (fun known (entered : Environment) => entered.Within (.checked context.registry known))
      (Run.ofExcept (scope.enterCall context.maxDepth)) := by
    unfold Environment.enterCall
    split
    · exact Safe.throw rfl fun _ same => by cases same
    · exact Safe.pure (within.at_depth _)
  apply entering.bind
  intro known' later entered inScope
  have binding : Safe context.registry known'
      (fun known (bound : Environment) => bound.Within (.checked context.registry known))
      (Run.copying (Store.copying (Environment.bindArguments params arguments entered))) :=
    Safe.copying fun _ bound _ done => inScope.bind_arguments (later.defaults defaults)
      (later.values given) done
  exact binding.bind fun _ _ _ inBody => run_body_safe bodies inBody checked

theorem call_procedure_safe {procedure : Procedure} {arguments : List Value}
    (checked : procedure.body.Checked context.registry)
    (defaults : ∀ param ∈ procedure.params,
      param.default.Within (.checked context.registry known))
    (given : ∀ argument ∈ arguments, argument.Within (.checked context.registry known)) :
    SafeValue context.registry known
      (callProcedure context run procedure arguments) :=
  Safe.locally fun _ within =>
    ⟨_, invoke_safe bodies within.env.procedure_scope checked defaults given, rfl⟩

theorem call_closure_safe {closure : Closure} {arguments : List Value} {depth : Nat}
    (callee : (Value.closure closure).Within (.checked context.registry known))
    (given : ∀ argument ∈ arguments, argument.Within (.checked context.registry known)) :
    SafeValue context.registry known
      (callClosure context run closure arguments depth) := by
  rcases callee.callee with ⟨owned, defaults⟩
  apply Safe.locally
  intro machine within
  rcases within.store closure owned with ⟨env, there, captured⟩
  have holds : machine.store.environmentOf closure = env := by simp [Store.environmentOf, there]
  have copies : Safe context.registry known
      (fun known (scope : Environment) => scope.Within (.checked context.registry known))
      (Run.copying (Store.copying (machine.store.environmentOf closure).copy)) :=
    Safe.copying fun _ scope _ done => captured.copy (holds ▸ done)
  refine ⟨_, copies.bind fun known' later scope inScope => ?_, rfl⟩
  exact invoke_safe bodies (inScope.at_depth depth) owned.1 (later.defaults defaults)
    (later.values given)

theorem call_value_safe {position : Position} {values : List Value}
    (given : ∀ value ∈ values, value.Within (.checked context.registry known)) :
    SafeValue context.registry known
      (callValue context run position values) := by
  unfold callValue
  cases last : values.getLast?.getD .void with
  | closure closure =>
      have callee : (Value.closure closure).Within (.checked context.registry known) := by
        cases found : values.getLast? with
        | none =>
            rw [found] at last
            cases last
        | some value =>
            rw [found] at last
            cases last
            exact given _ (List.mem_of_getLast? found)
      exact Safe.locally fun machine _ => ⟨_, call_closure_safe bodies callee fun value member =>
        given value (List.dropLast_subset _ member), rfl⟩
  | _ => exact Safe.throw rfl fun _ same => by cases same

end Bodies

section Nodes

variable {context : Context} {run : Tree → Run Value} {known : Nat → Prop} {position : Position}
  {children : List Tree}

theorem call_builtin_safe (brings : context.registry.BringsNoCode) {builtin : Builtin}
    {name : String} {arguments : List Value}
    (found : context.registry.find? name = some builtin)
    (accepted : builtin.arity.accepts arguments.length = true)
    (given : ∀ argument ∈ arguments, argument.Within (.checked context.registry known)) :
    SafeValue context.registry known (callBuiltin context builtin name position arguments) := by
  intro machine within
  rw [call_builtin_accepted accepted]
  cases outcome : builtin.run ⟨position, some machine.env, context.registry.catalogue⟩ arguments
      machine.store with
  | ok value store =>
      have calling : ∀ env, some machine.env = some env →
          env.Within (.checked context.registry known) := by
        rintro env ⟨⟩
        exact within.env
      rcases brings name builtin found _ _ _ _ _ _ _ _ calling given within.store outcome with
        ⟨holds, backs⟩
      exact .here holds ⟨within.env, backs⟩
  | error fault store => exact ⟨rfl, fun _ same => by cases same⟩

/-- A new closure is known from now on. -/
theorem capture_closure_safe {params : List Param} {body : Tree}
    (checked : body.Checked context.registry)
    (defaults : ∀ param ∈ params, param.default.Within (.checked context.registry known)) :
    SafeValue context.registry known (captureClosure params body position) := by
  intro machine within
  rw [capture_closure_apply]
  cases copied : machine.env.copy machine.store.resources with
  | error error fresh => exact ⟨rfl, fun _ same => by cases same⟩
  | ok captured fresh =>
      let known' := fun identity => known identity ∨ identity = machine.store.captured.size
      have later : Later known known' := fun _ => Or.inl
      refine ⟨known', later, ?_, within.env.later later, ?_⟩
      · exact .closure ⟨checked, Or.inr rfl⟩ (later.defaults defaults)
      · rintro closure ⟨body, old | new⟩
        · rcases within.store closure ⟨body, old⟩ with ⟨env, there, holds⟩
          have below : closure.identity < machine.store.captured.size :=
            (Array.getElem?_eq_some_iff.mp there).1
          exact ⟨env, by rw [Array.getElem?_push, if_neg (Nat.ne_of_lt below), there],
            holds.later later⟩
        · exact ⟨captured, by rw [Array.getElem?_push, if_pos new],
            (within.env.copy copied).later later⟩

variable (safe : ∀ child ∈ children, ∀ known,
  SafeValue context.registry known (evaluate context run child))

include safe

theorem evaluate_all_safe :
    Safe context.registry known
      (fun known values => (∀ value ∈ values, value.Within (.checked context.registry known)) ∧
        values.length = children.length) (evaluateAll context run children) := by
  induction children generalizing known with
  | nil =>
      rw [evaluateAll]
      exact Safe.pure ⟨List.forall_mem_nil _, rfl⟩
  | cons child rest induction =>
      rw [List.forall_mem_cons] at safe
      rw [evaluateAll]
      refine (safe.1 known).bind fun _ _ value holds => ?_
      refine (induction safe.2).bind fun _ later values others => Safe.pure ?_
      refine ⟨?_, congrArg Nat.succ others.2⟩
      rw [List.forall_mem_cons]
      exact ⟨holds.later later, others.1⟩

theorem evaluate_sequence_safe {last : Value}
    (holds : last.Within (.checked context.registry known)) :
    SafeValue context.registry known (evaluateSequence context run last children) := by
  induction children generalizing last known with
  | nil =>
      rw [evaluateSequence]
      exact Safe.pure holds
  | cons child rest induction =>
      rw [List.forall_mem_cons] at safe
      rw [evaluateSequence]
      exact (safe.1 known).bind fun _ _ value given => induction safe.2 given

omit safe in
theorem evaluate_branches_safe : (children : List Tree) → (known : Nat → Prop) →
    (∀ child ∈ children, ∀ known,
      SafeValue context.registry known (evaluate context run child)) →
    SafeValue context.registry known (evaluateBranches context run children)
  | [], _, _ => by
      rw [evaluateBranches]
      exact Safe.pure (.basic rfl)
  | [otherwise], known, safe => by
      rw [evaluateBranches]
      exact safe otherwise (by simp) known
  | condition :: branch :: rest, known, safe => by
      rw [evaluateBranches]
      refine (safe condition (by simp) known).bind fun known' _ decision _ => ?_
      split
      · exact safe branch (by simp) known'
      · exact evaluate_branches_safe rest known' fun child member => safe child (by simp [member])

theorem evaluate_assignment_safe (fits : SpecialForm.assignment.Fits children)
    (accepted : SpecialForm.assignment.arity.accepts children.length = true) :
    SafeValue context.registry known
      (evaluateAssignment context run position children) := by
  rcases fits with ⟨⟨payload, _, _, _, _⟩, name, rest, rfl, rfl⟩
  cases rest with
  | nil => simp [SpecialForm.arity] at accepted
  | cons expression rest =>
      rw [evaluateAssignment]
      refine (safe expression (by simp) known).bind fun _ _ value given => ?_
      exact (Safe.modify_env fun env within => within.set given).bind
        fun _ later _ _ => Safe.pure (given.later later)

omit safe in
theorem body_of_checked {registry : Registry}
    (checked : ∀ child ∈ children, child.Checked registry) :
    (bodyOf children).Checked registry := by
  unfold bodyOf
  cases last : children.getLast? with
  | none => exact .literal _ _ _ _ (.basic rfl)
  | some body => exact checked body (List.mem_of_getLast? last)

variable (safeParams : ∀ child ∈ children, ∀ known,
  SafeParam context.registry known (evaluateParam context run child))

omit safe

include safeParams

theorem evaluate_params_safe :
    Safe context.registry known
      (fun known (params : List Param) =>
        ∀ param ∈ params, param.default.Within (.checked context.registry known))
      (evaluateParams context run children) := by
  induction children generalizing known with
  | nil =>
      rw [evaluateParams]
      exact Safe.pure (List.forall_mem_nil _)
  | cons child rest induction =>
      cases rest with
      | nil =>
          rw [evaluateParams]
          exact Safe.pure (List.forall_mem_nil _)
      | cons next rest =>
          rw [List.forall_mem_cons] at safeParams
          rw [evaluateParams]
          refine (safeParams.1 known).bind fun _ _ param holds => ?_
          refine (induction safeParams.2).bind fun _ later params others => Safe.pure ?_
          rw [List.forall_mem_cons]
          exact ⟨holds.later later, others⟩

theorem evaluate_definition_safe (fits : SpecialForm.procedure.Fits children)
    (checked : ∀ child ∈ children, child.Checked context.registry) :
    SafeValue context.registry known
      (evaluateDefinition context run position children) := by
  rcases fits with ⟨nameNode, name, rest, rfl, named⟩
  rw [List.forall_mem_cons] at checked safeParams
  rw [evaluateDefinition]
  have naming : Safe context.registry known (fun _ _ => True) (definedName position nameNode) := by
    unfold definedName
    rw [named]
    exact Safe.pure trivial
  refine naming.bind fun known' _ name _ => ?_
  refine (evaluate_params_safe safeParams.2).bind fun known' _ params defaults => ?_
  have body : (Code.checked context.registry known').procedure
      ⟨name, params, bodyOf rest, position⟩ := body_of_checked checked.2
  exact (Safe.modify_env fun env within => within.define body defaults).bind
    fun _ _ _ _ => Safe.pure (.basic rfl)

theorem evaluate_closure_safe (checked : ∀ child ∈ children, child.Checked context.registry) :
    SafeValue context.registry known
      (evaluateParams context run children >>= fun params =>
        captureClosure params (bodyOf children) position) :=
  (evaluate_params_safe safeParams).bind fun _ _ _ defaults =>
    capture_closure_safe (body_of_checked checked) defaults

end Nodes

section Evaluation

variable {context : Context} {run : Tree → Run Value} {known : Nat → Prop}

theorem evaluate_param_safe {node : Tree}
    (safe : ∀ default ∈ node.children, node.functionName?.isSome = true →
      SafeValue context.registry known (evaluate context run default)) :
    SafeParam context.registry known (evaluateParam context run node) := by
  cases shape : node.parameter? with
  | none =>
      rw [evaluate_param_malformed _ _ shape]
      exact Safe.throw rfl fun _ same => by cases same
  | some parameter =>
      rcases parameter with ⟨name, default⟩
      rcases Tree.parameter_eq_some shape with ⟨_, _, _, _, rfl, rfl⟩ |
        ⟨_, _, _, ⟨payload, _, _, _, _⟩, expression, rest, rfl, named, rfl⟩
      · rw [evaluateParam]
        exact Safe.pure (.basic rfl)
      · subst named
        rw [evaluate_param_assigned]
        exact (safe expression (by simp) rfl).bind fun _ _ value given => Safe.pure given

/-- The evaluation of a tree that has been checked is safe if that of bodies is, and so is its
evaluation as a parameter. -/
theorem evaluate_safe (brings : context.registry.BringsNoCode)
    (bodies : ∀ (known : Nat → Prop) (body : Tree), body.Checked context.registry →
      SafeValue context.registry known (run body))
    {tree : Tree} (checked : tree.Checked context.registry) (known : Nat → Prop) :
    SafeValue context.registry known (evaluate context run tree) ∧
      SafeParam context.registry known (evaluateParam context run tree) := by
  induction checked generalizing known with
  | literal position optimized facts children plain =>
      refine ⟨?_, evaluate_param_safe fun _ _ called => by cases called⟩
      rw [evaluate_literal]
      exact (Safe.pure plain.nothing_mono).unless_interrupted
  | «variable» name position optimized facts children =>
      refine ⟨?_, evaluate_param_safe fun _ _ called => by cases called⟩
      rw [evaluate_variable]
      apply Safe.unless_interrupted
      intro machine within
      unfold readVariable Environment.read
      cases found : machine.env.get? name with
      | some value => exact .here (within.env.get found) within
      | none => exact ⟨rfl, fun _ same => by cases same⟩
  | @form name kind position optimized facts children special accepted fits below induction =>
      refine ⟨?_, evaluate_param_safe fun child member _ => (induction child member known).1⟩
      rw [evaluate_form _ _ _ _ _ _ special accepted]
      apply Safe.unless_interrupted
      have safe := fun child member known => (induction child member known).1
      have safeParams := fun child member known => (induction child member known).2
      cases kind with
      | autoConcat | sequence => exact evaluate_sequence_safe safe (.basic rfl)
      | conditional | choice => exact evaluate_branches_safe children known safe
      | procedure => exact evaluate_definition_safe safeParams fits below
      | assignment => exact evaluate_assignment_safe safe fits accepted
      | returning =>
          -- what is returned is within the code, which is what a caller relies on
          intro machine within
          have sequence : SafeValue context.registry known
              (evaluateSequence context run .void children) :=
            evaluate_sequence_safe safe (.basic rfl)
          simp only [evaluateForm]
          rw [bind_apply]
          cases outcome : evaluateSequence context run .void children machine with
          | ok value after =>
              refine ⟨rfl, fun value same => ?_⟩
              cases same
              exact sequence.of_ok within outcome
          | error error after => exact sequence.of_error within outcome
      | closure => exact evaluate_closure_safe safeParams below
      | execution =>
          exact (evaluate_all_safe safe).bind fun _ _ values given =>
            call_value_safe bodies given.1
  | @procedure name position optimized facts children plain named below induction =>
      have safe := fun child member known => (induction child member known).1
      refine ⟨?_, evaluate_param_safe fun child member _ => safe child member known⟩
      rw [evaluate_call _ _ _ _ _ _ plain named]
      apply Safe.unless_interrupted
      apply Safe.locally
      intro machine within
      cases found : machine.env.procedure? name with
      | none =>
          have missing : SafeValue context.registry known
              (MonadExcept.throw (EvalError.undefinedProcedure name position)) :=
            Safe.throw rfl fun _ same => by cases same
          exact ⟨_, missing, evaluate_call_missing _ _ _ _ found⟩
      | some procedure =>
          rcases within.env.procedure found with ⟨body, defaults⟩
          refine ⟨_, (evaluate_all_safe safe).bind fun _ later values given => ?_,
            evaluate_call_found _ _ _ _ found⟩
          exact call_procedure_safe bodies body (later.defaults defaults) given.1
  | @function name builtin position optimized facts children plain unnamed found accepted below
      induction =>
      have safe := fun child member known => (induction child member known).1
      refine ⟨?_, evaluate_param_safe fun child member _ => safe child member known⟩
      rw [evaluate_builtin _ _ _ _ _ _ plain unnamed found]
      apply Safe.unless_interrupted
      refine (evaluate_all_safe safe).bind fun _ _ values given => ?_
      exact call_builtin_safe brings found (by rw [given.2]; exact accepted) given.1

/-- The bodies are safe to run, by induction on the calls that are left. -/
theorem body_runner_safe (brings : context.registry.BringsNoCode) (calls : Nat)
    (known : Nat → Prop) (tree : Tree) (checked : tree.Checked context.registry) :
    SafeValue context.registry known (bodyRunner context calls tree) := by
  induction calls generalizing known tree with
  | zero => exact Safe.throw rfl fun _ same => by cases same
  | succ calls induction => exact (evaluate_safe brings induction checked known).1

end Evaluation

section Scripts

variable {context : Context} {options : OptimizeOptions} {depth : Nat} {tree tree' : Tree}
  {store store' : Store} {machine after : Machine}

/-- A script that compiles does not run into the errors that the optimizer looks for, whichever
simplifications are made and wherever it fails: not in procedures or closures, in defaults or in
what was inlined. It has to start without procedures and closures, and the functions must bring
none. -/
theorem foreseen_errors_excluded (brings : context.registry.BringsNoCode)
    (fresh : tree.Everywhere fun node => node.optimized = false)
    (plain : tree.Everywhere fun node => node.value?.any Value.holdsClosure = false)
    (done : runVisit (Optimizer.pass ⟨context.registry, options⟩ depth) tree store =
      .ok tree' store')
    (noProcedures : machine.env.procedures.entries = [])
    (noClosures : ∀ entry ∈ machine.env.vars.entries, entry.2.holdsClosure = false)
    {error : EvalError} (failed : tree'.eval context machine = .error error after) :
    error.isForeseen = false := by
  have checked : tree'.Checked context.registry :=
    run_checks brings (.of_fresh fresh plain) done
  have within : machine.Within context.registry fun _ => False := by
    refine ⟨⟨fun entry member => ?_, ?_⟩, fun _ owned => owned.2.elim⟩
    · exact Value.within_of_no_closure _ (noClosures entry member)
    · rw [noProcedures]
      exact nofun
  have safe : SafeValue context.registry (fun _ => False)
      (evaluate context (bodyRunner context (context.maxDepth - machine.env.depth)) tree') :=
    (evaluate_safe brings (body_runner_safe brings _) checked _).1
  exact (safe.of_error within failed).1

def measuring : Tree :=
  let items : Tree := .node (.variable "@items") [] .unknown
  let size : Tree := .node (.variable "@size") [] .unknown
  let closure : Tree :=
    .call SpecialForm.closure.name [items, .call "array_size" [items] .unknown] .unknown
  .call SpecialForm.sequence.name
    [.call SpecialForm.assignment.name [size, closure] .unknown,
      .call SpecialForm.execution.name [.literal (.int 3) .unknown, size] .unknown] .unknown

theorem foreseen_errors_excluded_measuring :
    ∃ tree' store' error after,
      Optimizer.optimize ⟨Prelude.registry, {}⟩ measuring {} = .ok tree' store' ∧
      tree'.eval .standard {} = .error error after ∧ error.isForeseen = false := by
  have fresh : measuring.Everywhere fun node => node.optimized = false := by decide
  have plain : measuring.Everywhere fun node => node.value?.any Value.holdsClosure = false := by
    decide
  have brings : Context.standard.registry.BringsNoCode := Prelude.registry_brings_no_code
  have compiles : ∃ tree' store' error after,
      Optimizer.optimize ⟨Prelude.registry, {}⟩ measuring {} = .ok tree' store' ∧
      tree'.eval .standard {} = .error error after := ⟨_, _, _, _, rfl, rfl⟩
  rcases compiles with ⟨tree', store', error, after, done, failed⟩
  exact ⟨tree', store', error, after, done, failed,
    foreseen_errors_excluded brings fresh plain done rfl
      (fun _ member => absurd member List.not_mem_nil) failed⟩

/-- All closures that the functions give back have been found in their arguments or in the
environment of the call. What they do to the environments that closures have captured is left
open. -/
def Registry.ReturnsFoundClosures (registry : Registry) : Prop :=
  ∀ name builtin, registry.find? name = some builtin →
    ∀ (code : Code) position catalogue (env : Option Environment) arguments store value after,
      (∀ known, env = some known → known.Within code) →
      (∀ argument ∈ arguments, argument.Within code) →
      builtin.run ⟨position, env, catalogue⟩ arguments store = .ok value after → value.Within code

def plant (arguments : List Value) : Action := fun store =>
  match arguments with
  | [.closure closure] =>
      let planted : Procedure := ⟨"_q", [], .call "unheard_of" [] .unknown, .unknown⟩
      .ok .void (store.modifyCaptured closure (·.define planted))
  | _ => .ok .void store

def planter : Builtin where
  name := "plant"
  arity := .exactly 1
  run := fun _ => plant

def endsForeseen : EStateM.Result EvalError Machine Value → Bool
  | .error error _ => error.isForeseen
  | .ok _ _ => false

/-- A function may return nothing and still bring code that no optimizer has seen. -/
theorem planted_code_fails :
    let registry : Registry := .ofList [planter]
    let callee : Tree := .node (.variable "@f") [] .unknown
    let closure : Tree :=
      .call SpecialForm.closure.name
        [.call SpecialForm.returning.name [.call "_q" [] .unknown] .unknown] .unknown
    let script : Tree := .call SpecialForm.sequence.name
      [.call SpecialForm.assignment.name [callee, closure] .unknown,
        .call "plant" [callee] .unknown, .call SpecialForm.execution.name [callee] .unknown]
      .unknown
    registry.ReturnsFoundClosures ∧
    (script.Everywhere fun node => node.optimized = false) ∧
    (script.Everywhere fun node => node.value?.any Value.holdsClosure = false) ∧
    ∃ tree' store', Optimizer.optimize ⟨registry, {}⟩ script {} = .ok tree' store' ∧
      endsForeseen (tree'.eval { registry } {}) = true := by
  refine ⟨?_, by decide, by decide, _, _, rfl, by decide +kernel⟩
  intro name builtin found code position catalogue env arguments store value after _ _ done
  obtain rfl : builtin = planter := List.mem_singleton.mp (Registry.find_of_list found).1
  have done : plant arguments store = .ok value after := done
  unfold plant at done
  split at done <;> cases done <;> exact .basic rfl

end Scripts

end TreeScript
