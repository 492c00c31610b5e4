import TreeScript.Proofs.Rewriting
/-!
# Knowledge that is in force

What an optimizer knows of a name is a template, and it is in force in an environment whose
procedure of that name does what the template says. Two facts are kept by every rewriting while
that is so. Evaluating a tree defines no procedures but those that the rewritten tree exposes, so
the knowledge stays in force around it. And a tree that is rewritten to one that leaves the machine
alone comes to the same as that one, on the very same machine.
-/

namespace TreeScript

set_option autoImplicit false

/-- The target gives what the source gives, and neither changes the machine. A source that runs
out of calls is excused. The target has to fail where the source does only if the parameters of
known procedures are distinct. -/
def Answers {Result : Type} (rules : Rules) (machine : Machine) (source target : Run Result) :
    Prop :=
  match source machine with
  | .ok value after => after = machine ∧ target machine = .ok value machine
  | .error (.returned value) after =>
      after = machine ∧ target machine = .error (.returned value) machine
  | .error (.stackOverflow _ _) _ => True
  | .error _ _ => rules.distinct = true →
      ∃ error after, target machine = .error error after ∧ error.isOrdinary = true

namespace Answers

variable {rules : Rules} {machine after : Machine} {Item Result : Type}
  {source source' target target' : Run Result}

theorem of_ok (answers : Answers rules machine source target) {value : Result}
    (done : source machine = .ok value after) :
    after = machine ∧ target machine = .ok value machine := by
  unfold Answers at answers
  rw [done] at answers
  exact answers

theorem of_returned (answers : Answers rules machine source target) {value : Value}
    (done : source machine = .error (.returned value) after) :
    after = machine ∧ target machine = .error (.returned value) machine := by
  unfold Answers at answers
  rw [done] at answers
  exact answers

theorem of_ordinary (answers : Answers rules machine source target) {error : EvalError}
    (done : source machine = .error error after) (ordinary : error.isOrdinary = true)
    (distinct : rules.distinct = true) :
    ∃ error after, target machine = .error error after ∧ error.isOrdinary = true := by
  unfold Answers at answers
  rw [done] at answers
  cases error <;> first | exact answers distinct | cases ordinary

theorem congr (answers : Answers rules machine source target)
    (sameSource : source' machine = source machine)
    (sameTarget : target' machine = target machine) : Answers rules machine source' target' := by
  unfold Answers at answers ⊢
  rw [sameSource, sameTarget]
  exact answers

theorem of_except (result : Except EvalError Result)
    (sameSource : source machine = Run.ofExcept result machine)
    (sameTarget : target machine = Run.ofExcept result machine) :
    Answers rules machine source target := by
  unfold Answers
  rw [sameSource, sameTarget]
  cases result with
  | ok value => exact ⟨rfl, rfl⟩
  | error error =>
      cases error <;>
        first
        | exact ⟨rfl, rfl⟩
        | trivial
        | exact fun _ => ⟨_, _, rfl, rfl⟩

theorem overflow {depth limit : Nat}
    (done : source machine = .error (.stackOverflow depth limit) after) :
    Answers rules machine source target := by
  unfold Answers
  rw [done]
  trivial

theorem unless_interrupted (answers : Answers rules machine source target)
    (clear : machine.store.interrupted = false) :
    Answers rules machine (unlessInterrupted source) (unlessInterrupted target) :=
  answers.congr (unless_interrupted_clear source clear) (unless_interrupted_clear target clear)

theorem bind {source target : Run Item} {next next' : Item → Run Result}
    (first : Answers rules machine source target)
    (others : ∀ value, source machine = .ok value machine → target machine = .ok value machine →
      Answers rules machine (next value) (next' value)) :
    Answers rules machine (source >>= next) (target >>= next') := by
  cases outcome : source machine with
  | ok value after =>
      rcases first.of_ok outcome with ⟨rfl, reached⟩
      exact (others value outcome reached).congr (bind_of_ok outcome) (bind_of_ok reached)
  | error error after =>
      unfold Answers at first ⊢
      rw [bind_of_error outcome]
      rw [outcome] at first
      cases error with
      | returned value =>
          rcases first with ⟨rfl, reached⟩
          exact ⟨rfl, bind_of_error reached⟩
      | stackOverflow depth limit => trivial
      | _ =>
          intro distinct
          rcases first distinct with ⟨cause, after', reached, ordinary⟩
          exact ⟨cause, after', bind_of_error reached, ordinary⟩

theorem trans {middle : Run Result} (first : Answers rules machine source middle)
    (second : Answers rules machine middle target) : Answers rules machine source target := by
  cases outcome : source machine with
  | ok value after =>
      rcases first.of_ok outcome with ⟨rfl, reached⟩
      unfold Answers
      rw [outcome]
      exact ⟨rfl, (second.of_ok reached).2⟩
  | error error after =>
      cases error with
      | returned value =>
          rcases first.of_returned outcome with ⟨rfl, reached⟩
          unfold Answers
          rw [outcome]
          exact ⟨rfl, (second.of_returned reached).2⟩
      | stackOverflow depth limit => exact overflow outcome
      | _ =>
          unfold Answers
          rw [outcome]
          intro distinct
          rcases first.of_ordinary outcome rfl distinct with ⟨cause, after', reached, ordinary⟩
          exact second.of_ordinary reached ordinary distinct

/-- Two results that leave the machine alone and have the same values. -/
theorem of_same_values {result result' : Except EvalError Result}
    (sameSource : source machine = Run.ofExcept result machine)
    (sameTarget : target machine = Run.ofExcept result' machine)
    (values : ∀ value, result = .ok value → result' = .ok value)
    (errors : ∀ error, result = .error error → error.isOrdinary = true ∧
      (rules.distinct = true → ∃ error', result' = .error error' ∧ error'.isOrdinary = true)) :
    Answers rules machine source target := by
  unfold Answers
  rw [sameSource, sameTarget]
  cases result with
  | ok value =>
      rw [values value rfl]
      exact ⟨rfl, rfl⟩
  | error error =>
      rcases errors error rfl with ⟨ordinary, fails⟩
      have failed : rules.distinct = true → ∃ error after,
          Run.ofExcept result' machine = .error error after ∧ error.isOrdinary = true := by
        intro distinct
        rcases fails distinct with ⟨error', same, ordinary'⟩
        rw [same]
        exact ⟨error', machine, rfl, ordinary'⟩
      cases error <;>
        first
        | exact failed
        | cases ordinary

end Answers

def DefinesOnly {Result : Type} (names : List String) (action : Run Result) (machine : Machine) :
    Prop :=
  ∀ value after, action machine = .ok value after →
    ∀ name, name ∉ names → after.env.procedure? name = machine.env.procedure? name

namespace DefinesOnly

variable {names names' : List String} {Item Result : Type} {machine : Machine}
  {action : Run Result}

theorem of_keeps (keeps : KeepsEnvironment action) : DefinesOnly names action machine := by
  intro value after done name _
  rw [keeps.of_ok done]

theorem mono (defines : DefinesOnly names action machine)
    (more : ∀ name ∈ names, name ∈ names') : DefinesOnly names' action machine :=
  fun value after done name outside =>
    defines value after done name fun member => outside (more name member)

theorem of_eq {action' : Run Result} (defines : DefinesOnly names action machine)
    (same : action' machine = action machine) : DefinesOnly names action' machine := by
  intro value after done
  rw [same] at done
  exact defines value after done

theorem unless_interrupted (defines : DefinesOnly names action machine) :
    DefinesOnly names (unlessInterrupted action) machine :=
  fun value after done => defines value after (unless_interrupted_ok done).2

theorem bind {first : Run Item} {next : Item → Run Result}
    (defines : DefinesOnly names first machine)
    (others : ∀ item between, first machine = .ok item between →
      DefinesOnly names' (next item) between) :
    DefinesOnly (names ++ names') (first >>= next) machine := by
  intro value after done name outside
  rw [List.mem_append, not_or] at outside
  rcases bind_eq_ok done with ⟨item, between, begun, finished⟩
  rw [others item between begun value after finished name outside.2]
  exact defines item between begun name outside.1

theorem bind_keeps {first : Run Item} {next : Item → Run Result}
    (defines : DefinesOnly names first machine) (keeps : ∀ item, KeepsEnvironment (next item)) :
    DefinesOnly names (first >>= next) machine := by
  intro value after done name outside
  rcases bind_eq_ok done with ⟨item, between, begun, finished⟩
  rw [(keeps item).of_ok finished]
  exact defines item between begun name outside

end DefinesOnly

structure Template.Implemented (registry : Registry) (rules : Rules) (template : Template)
    (procedure : Procedure) : Prop where
  aligned : List.Forall₂ Param.Matches procedure.params template.slots
  trusted : template.Trusted rules
  returns : ∃ body params expression,
    Rewrites registry rules .node .nothing [procedure.body] [body] ∧
    body.returned? = some expression ∧ template.Describes registry params expression

def InForce (registry : Registry) (rules : Rules) (known : Known) (env : Environment) : Prop :=
  ∀ name template, known name = some template →
    ∃ procedure, env.procedure? name = some procedure ∧
      template.Implemented registry rules procedure

namespace InForce

variable {registry : Registry} {rules : Rules} {known after : Known} {env env' : Environment}

theorem nothing : InForce registry rules .nothing env := by
  intro name template found
  cases found

/-- What survives the definitions that an action makes stays in force. -/
theorem survives (inForce : InForce registry rules known env) {names : List String}
    (survives : known.Survives names after)
    (kept : ∀ name, name ∉ names → env'.procedure? name = env.procedure? name) :
    InForce registry rules after env' := by
  intro name template found
  rcases survives name template found with ⟨before, outside⟩
  rw [kept name outside]
  exact inForce name template before

theorem after_action {Result : Type} {names : List String} {action : Run Result}
    {machine machine' : Machine} {value : Result}
    (inForce : InForce registry rules known machine.env) (survives : known.Survives names after)
    (defines : DefinesOnly names action machine) (done : action machine = .ok value machine') :
    InForce registry rules after machine'.env :=
  inForce.survives survives (defines value machine' done)

end InForce

def AnswersBodies (context : Context) (rules : Rules) (run : Tree → Run Value) : Prop :=
  ∀ body body' expression,
    Rewrites context.registry rules .node .nothing [body] [body'] →
    body'.returned? = some expression → expression.Quiet context.registry →
    ∀ machine : Machine, machine.store.interrupted = false →
      Answers rules machine (run body) (returning context.registry expression)

/-- What a rewriting of a part of a tree upholds while the knowledge is in force. -/
def Upholds (context : Context) (rules : Rules) (run : Tree → Run Value) :
    Part → Known → List Tree → List Tree → Prop
  | .node, known, [node], [node'] => ∀ machine,
      InForce context.registry rules known machine.env →
      DefinesOnly node'.exposed (evaluate context run node) machine ∧
        (node'.Calm context.registry → machine.store.interrupted = false →
          Answers rules machine (evaluate context run node) (evaluate context run node'))
  | .node, _, _, _ => True
  | .arguments, known, nodes, nodes' => ∀ machine,
      InForce context.registry rules known machine.env →
      DefinesOnly (Tree.exposedAll nodes') (evaluateAll context run nodes) machine ∧
        ((∀ node ∈ nodes', node.Calm context.registry) → machine.store.interrupted = false →
          Answers rules machine (evaluateAll context run nodes) (evaluateAll context run nodes'))
  | .statements, known, nodes, nodes' => ∀ machine last,
      InForce context.registry rules known machine.env →
      DefinesOnly (Tree.exposedAll nodes') (evaluateSequence context run last nodes) machine ∧
        ((∀ node ∈ nodes', node.Calm context.registry) → machine.store.interrupted = false →
          Answers rules machine (evaluateSequence context run last nodes)
            (evaluateSequence context run last nodes'))
  | .branches, known, nodes, nodes' => ∀ machine,
      InForce context.registry rules known machine.env →
      DefinesOnly (Tree.exposedAll nodes') (evaluateBranches context run nodes) machine ∧
        ((∀ node ∈ nodes', node.Calm context.registry) → machine.store.interrupted = false →
          Answers rules machine (evaluateBranches context run nodes)
            (evaluateBranches context run nodes'))
  | .parts, known, nodes, nodes' => ∀ machine,
      InForce context.registry rules known machine.env →
      DefinesOnly (Tree.exposedParts nodes') (evaluateParams context run nodes) machine ∧
        ∀ params after slots, evaluateParams context run nodes machine = .ok params after →
          nodes'.dropLast.mapM Slot.ofNode? = some slots →
          List.Forall₂ Param.Matches params slots

section Calls

variable {context : Context} {rules : Rules} {machine : Machine}

theorem Tree.bare_of_fresh_copy (tree : Tree) (bare : tree.freshCopy.Everywhere Tree.BareLeaf) :
    tree.Everywhere Tree.BareLeaf := by
  induction tree using Tree.induction with
  | node payload position optimized facts children induction =>
      rw [Tree.freshCopy, Tree.freshCopies_eq_map] at bare
      refine .node (fun leaf => ?_) fun child member => ?_
      · exact List.map_eq_nil_iff.mp (bare.here leaf)
      · exact induction child member (bare.inside child.freshCopy (List.mem_map_of_mem member))

theorem run_body_answers {run : Tree → Run Value} {scope : Environment} {body expression : Tree}
    (answers : Answers rules ⟨scope, machine.store⟩ (run body)
      (returning context.registry expression)) :
    Answers rules machine (runBody run scope body)
      (Run.ofExcept (expression.denote context.registry scope.read)) := by
  have ordinary := @Tree.denote_error_ordinary context.registry scope.read
  unfold Answers runBody
  cases outcome : run body ⟨scope, machine.store⟩ with
  | ok value after =>
      have reached := (answers.of_ok outcome).2
      unfold returning at reached
      split at reached <;> cases reached
  | error error after =>
      cases error with
      | returned value =>
          rcases answers.of_returned outcome with ⟨rfl, reached⟩
          unfold returning at reached
          split at reached
          · rename_i found denoted
            cases reached
            refine ⟨rfl, ?_⟩
            have denoted' : expression.denote context.registry scope.read = .ok value := denoted
            rw [denoted']
            rfl
          · rename_i found denoted
            cases reached
            cases ordinary (reading_ordinary scope) expression denoted
      | stackOverflow depth limit => trivial
      | _ =>
          intro distinct
          rcases answers.of_ordinary outcome rfl distinct with ⟨cause, after', reached, plain⟩
          unfold returning at reached
          split at reached
          · cases reached
            cases plain
          · rename_i found denoted
            cases reached
            have denoted' : expression.denote context.registry scope.read = .error cause := denoted
            rw [denoted']
            exact ⟨cause, machine, rfl, plain⟩

theorem fails_where_no_value {registry : Registry} {env : Environment} {tree : Tree}
    (noValue : ∀ value, tree.denote registry env.read ≠ .ok value) :
    ∃ error, tree.denote registry env.read = .error error ∧ error.isOrdinary = true := by
  cases result : tree.denote registry env.read with
  | ok value => exact absurd result (noValue value)
  | error error =>
      exact ⟨error, rfl, Tree.denote_error_ordinary (reading_ordinary env) tree result⟩

/-- Entering the body of a known procedure answers the replacement of the call. -/
theorem entered_call_answers {run : Tree → Run Value} (bodies : AnswersBodies context rules run)
    (apart : context.registry.KeepsNamesApart) (faithful : context.registry.ComputesPurely)
    (clear : machine.store.interrupted = false) {template : Template} {procedure : Procedure}
    (implemented : template.Implemented context.registry rules procedure)
    {arguments : List Tree} {position : Position} {replacement : Tree}
    (instantiated : template.instantiate? context.registry arguments position = some replacement)
    {values : List Value}
    (denoted : Tree.denoteAll context.registry machine.env.read arguments = .ok values) :
    Answers rules machine (callProcedure context run procedure values)
      (evaluate context run replacement) := by
  rcases implemented.returns with ⟨body, params, expression, rewritten, returned, described⟩
  have quiet := Tree.quiet_of_side_effect_free apart expression described.quiet
  rcases replacement_denotes machine.env apart described instantiated with
    ⟨bindings, bound, quietReplacement, sameValue⟩
  have target : Denotes context run machine replacement :=
    evaluate_quiet faithful clear quietReplacement
  have unread : argumentsVariable ∉ expression.variableNames :=
    fun member => implemented.trusted.unhidden ((described.reads _).mpr member)
  have entered := @call_procedure_entered context machine procedure template expression arguments
    run described.closed unread implemented.aligned values machine.env.read
    (denote_all_values denoted)
    (fun slot member => implemented.trusted.plain slot (List.mem_of_mem_drop member)) bindings bound
  rcases entered with ⟨depth, overflow⟩ | ⟨scope, called, same⟩
  · exact Answers.overflow overflow
  have inside : (⟨scope, machine.store⟩ : Machine).store.interrupted = false := clear
  have body := bodies _ _ _ rewritten returned quiet ⟨scope, machine.store⟩ inside
  have entered : Answers rules machine (callProcedure context run procedure values)
      (Run.ofExcept (expression.denote context.registry scope.read)) :=
    (run_body_answers body).congr called rfl
  apply entered.trans
  apply Answers.of_same_values rfl target
  · intro value denoted'
    rw [same] at denoted'
    exact (sameValue value).mpr denoted'
  · intro error failed
    refine ⟨Tree.denote_error_ordinary (reading_ordinary scope) expression failed, fun _ => ?_⟩
    apply fails_where_no_value
    intro value valued
    have denoted' := (sameValue value).mp valued
    rw [← same, failed] at denoted'
    cases denoted'

/-- A call of a known procedure answers the expression that replaces it. -/
theorem known_call_answers {run : Tree → Run Value} (bodies : AnswersBodies context rules run)
    (apart : context.registry.KeepsNamesApart) (faithful : context.registry.ComputesPurely)
    (clear : machine.store.interrupted = false) {template : Template} {procedure : Procedure}
    (implemented : template.Implemented context.registry rules procedure)
    {children arguments : List Tree} {position : Position} {replacement : Tree}
    (instantiated : template.instantiate? context.registry arguments position = some replacement)
    (first : Answers rules machine (evaluateAll context run children)
      (evaluateAll context run arguments)) :
    Answers rules machine
      (evaluateAll context run children >>= callProcedure context run procedure)
      (evaluate context run replacement) := by
  have denotes : evaluateAll context run arguments machine =
      Run.ofExcept (Tree.denoteAll context.registry machine.env.read arguments) machine := by
    apply evaluate_all_denotes
    intro argument member
    apply evaluate_quiet faithful clear
    exact Tree.quiet_of_side_effect_free apart argument
      ((accepts_parts (instantiate_accepts instantiated)).2 argument member)
  have answers : Answers rules machine
      (evaluateAll context run children >>= callProcedure context run procedure)
      (evaluateAll context run arguments >>= fun _ => evaluate context run replacement) := by
    apply first.bind
    intro values _ reached
    rw [denotes] at reached
    cases denoted : Tree.denoteAll context.registry machine.env.read arguments with
    | ok values' =>
        rw [denoted] at reached
        cases reached
        exact entered_call_answers bodies apart faithful clear implemented instantiated denoted
    | error error =>
        rw [denoted] at reached
        cases reached
  cases denoted : Tree.denoteAll context.registry machine.env.read arguments with
  | ok values =>
      rw [denoted] at denotes
      have continues : (evaluateAll context run arguments >>= fun _ =>
          evaluate context run replacement) machine = evaluate context run replacement machine :=
        bind_of_ok denotes
      exact answers.congr rfl continues.symm
  | error error =>
      rw [denoted] at denotes
      have stops : (evaluateAll context run arguments >>= fun _ =>
          evaluate context run replacement) machine = Run.ofExcept (.error error) machine :=
        bind_of_error denotes
      rcases implemented.returns with ⟨body, params, expression, -, -, described⟩
      rcases replacement_denotes machine.env apart described instantiated with
        ⟨bindings, bound, quietReplacement, sameValue⟩
      have target : Denotes context run machine replacement :=
        evaluate_quiet faithful clear quietReplacement
      apply answers.trans
      apply Answers.of_same_values stops target
      · intro value same
        cases same
      · intro cause same
        cases same
        rcases Tree.denote_all_error denoted with ⟨argument, -, origin⟩
        refine ⟨Tree.denote_error_ordinary (reading_ordinary machine.env) argument origin, ?_⟩
        intro distinct
        have quiet := Tree.quiet_of_side_effect_free apart expression described.quiet
        have bare := Tree.bare_of_fresh_copy expression
          (described.body ▸ implemented.trusted.bare)
        rcases failing_argument_fails described quiet bare
          (implemented.trusted.distinct distinct) (instantiate_accepts instantiated) bound denoted
          with ⟨other, failed⟩
        apply fails_where_no_value
        intro value valued
        have denoted' := (sameValue value).mp valued
        rw [failed] at denoted'
        cases denoted'

end Calls

section Upholding

variable {context : Context} {rules : Rules} {run : Tree → Run Value}

theorem not_calm_form {registry : Registry} {name : String} {form : SpecialForm}
    {position : Position} {optimized : Bool} {facts : Facts} {children : List Tree}
    (special : SpecialForm.ofName? name = some form) (busy : Tree.isCalm form = false) :
    ¬ Tree.Calm registry ⟨.call name, position, optimized, facts, children⟩ := by
  intro calm
  cases calm with
  | form _ _ _ special' allowed below =>
      rw [special] at special'
      cases special'
      rw [busy] at allowed
      cases allowed
  | function _ _ _ plain named found isPure below =>
      rw [special] at plain
      cases plain

theorem evaluate_sequence_append (context : Context) (run : Tree → Run Value) (last : Value)
    (front rest : List Tree) :
    evaluateSequence context run last (front ++ rest) =
      (evaluateSequence context run last front >>= fun value =>
        evaluateSequence context run value rest) := by
  funext machine
  induction front generalizing last machine with
  | nil => rfl
  | cons node front induction =>
      simp only [List.cons_append, evaluateSequence, bind_apply]
      cases evaluate context run node machine with
      | ok value between =>
          simp only [induction value between, bind_apply]
      | error error between => rfl

theorem evaluate_all_constant {machine : Machine} (clear : machine.store.interrupted = false)
    {nodes : List Tree} (constant : nodes.all Tree.isConstant = true) :
    evaluateAll context run nodes machine = .ok (nodes.filterMap Tree.value?) machine := by
  induction nodes with
  | nil => rfl
  | cons node rest induction =>
      rw [List.all_cons, Bool.and_eq_true] at constant
      rcases node with ⟨payload, position, optimized, facts, children⟩
      cases payload with
      | literal value =>
          simp only [evaluateAll, bind_apply]
          rw [evaluate_literal, unless_interrupted_clear _ clear]
          simp only [pure_apply, induction constant.2]
          rfl
      | _ => cases constant.1

theorem constant_calm {registry : Registry} {forms : SpecialForm → Bool} {nodes : List Tree}
    (constant : nodes.all Tree.isConstant = true) :
    ∀ node ∈ nodes, node.CallsOnly registry forms := by
  intro node member
  have literal := List.all_eq_true.mp constant node member
  rcases node with ⟨payload, position, optimized, facts, children⟩
  cases payload with
  | literal value => exact .literal _ _ _ _ _
  | _ => cases literal

theorem exposed_all_constant {nodes : List Tree} (constant : nodes.all Tree.isConstant = true) :
    Tree.exposedAll nodes = [] :=
  @Tree.exposed_all_calm {} nodes (constant_calm constant)

theorem evaluate_definition_defines {machine : Machine} {names : List String} {nameNode : Tree}
    {parts : List Tree} {position : Position}
    (defines : DefinesOnly names (evaluateParams context run parts) machine) :
    DefinesOnly (nameNode.procedureName?.toList ++ names)
      (evaluateDefinition context run position (nameNode :: parts)) machine := by
  intro value after done name outside
  rw [List.mem_append, not_or] at outside
  rcases evaluate_definition_ok _ _ _ done with ⟨defined, params, between, found, made, -, rfl⟩
  rcases Option.filter_eq_some_iff.mp found with ⟨given, -⟩
  have differs : name ≠ defined := by
    intro same
    apply outside.1
    simp [given, same]
  rw [← defines params between made name outside.2]
  unfold Environment.procedure? Environment.define
  rw [Bindings.find?_put, if_neg differs]

theorem evaluate_assignment_defines {machine : Machine} {names : List String}
    {first expression : Tree} {target : String} {position : Position}
    (variable' : first.payload = .variable target)
    (defines : DefinesOnly names (evaluate context run expression) machine) :
    DefinesOnly names (evaluateAssignment context run position [first, expression]) machine := by
  rcases first with ⟨payload, position', optimized, facts, children⟩
  subst variable'
  intro value after done name outside
  simp only [evaluateAssignment] at done
  rcases bind_eq_ok done with ⟨item, between, evaluated, done⟩
  rw [bind_apply, modify_env_apply] at done
  cases done
  exact defines value between evaluated name outside

theorem evaluate_call_defines {machine : Machine} {names : List String} {name : String}
    {position : Position} {children : List Tree}
    (defines : DefinesOnly names (evaluateAll context run children) machine) :
    DefinesOnly names (evaluateCall context run position children name) machine := by
  cases found : machine.env.procedure? name with
  | none =>
      intro value after done
      rw [evaluate_call_missing _ _ _ _ found] at done
      cases done
  | some procedure =>
      exact (defines.bind_keeps fun values =>
        KeepsEnvironment.call_procedure context run procedure values).of_eq
          (evaluate_call_found _ _ _ _ found)

theorem values_length {nodes : List Tree} (constant : nodes.all Tree.isConstant = true) :
    (nodes.filterMap Tree.value?).length = nodes.length := by
  induction nodes with
  | nil => rfl
  | cons node rest induction =>
      rw [List.all_cons, Bool.and_eq_true] at constant
      rcases node with ⟨payload, position, optimized, facts, children⟩
      cases payload with
      | literal value =>
          have shown : Tree.value? ⟨.literal value, position, optimized, facts, children⟩ =
            some value := rfl
          simp only [List.filterMap_cons, shown, List.length_cons, induction constant.2]
      | _ => cases constant.1

theorem folded_call_answers (faithful : context.registry.FoldsFaithfully) {machine : Machine}
    {name : String} {builtin : Builtin} (found : context.registry.find? name = some builtin)
    {children children' : List Tree} {position : Position} {value : Value} {store store' : Store}
    (accepted : builtin.arity.accepts children'.length = true)
    (constant : children'.all Tree.isConstant = true)
    (foldable : builtin.isFoldable children' = true)
    (ran : builtin.run ⟨position, none, context.registry.catalogue⟩
      (children'.filterMap Tree.value?) store = .ok value store')
    (clear : machine.store.interrupted = false)
    (answers : Answers rules machine (evaluateAll context run children)
      (evaluateAll context run children')) :
    Answers rules machine
      (evaluateAll context run children >>= callBuiltin context builtin name position)
      (pure value) := by
  have values := @evaluate_all_constant context run machine clear children' constant
  have counted := values_length constant
  rcases faithful name builtin children' found constant foldable with ⟨result, same⟩
  have folded : Answers rules machine
      (evaluateAll context run children >>= callBuiltin context builtin name position)
      (evaluateAll context run children' >>= fun _ => pure value) := by
    apply answers.bind
    intro values' _ reached
    rw [values] at reached
    cases reached
    rw [same] at ran
    cases result with
    | error fault => cases ran
    | ok result =>
        cases ran
        apply Answers.of_except (.ok value) _ rfl
        rw [call_builtin_accepted (by rw [counted]; exact accepted), same]
        rfl
  have continues : (evaluateAll context run children' >>= fun _ => (pure value : Run Value))
      machine = (pure value : Run Value) machine := bind_of_ok values
  exact folded.congr rfl continues.symm

/-- A condition whose truth is settled has the value it was rewritten to, and changes nothing. -/
theorem decided_condition {known : Known} {condition condition' : Tree} {value value' : Value}
    {machine after : Machine}
    (upheld : Upholds context rules run .node known [condition] [condition'])
    (inForce : InForce context.registry rules known machine.env)
    (decided : condition'.payload = .literal value)
    (done : evaluate context run condition machine = .ok value' after) :
    value' = value ∧ after = machine := by
  rcases condition' with ⟨payload, position, optimized, facts, children⟩
  subst decided
  have clear := clear_of_evaluate_ok context run done
  have answers := (upheld machine inForce).2 (.literal _ _ _ _ _) clear
  rcases answers.of_ok done with ⟨same, reached⟩
  exact ⟨(evaluate_literal_ok _ _ _ _ _ _ reached).1, same⟩

theorem decided_branches_answer {known : Known} {condition condition' : Tree} {value : Value}
    {machine : Machine} {next : Value → Run Value} {target : Run Value}
    (upheld : Upholds context rules run .node known [condition] [condition'])
    (inForce : InForce context.registry rules known machine.env)
    (decided : condition'.payload = .literal value) (clear : machine.store.interrupted = false)
    (answers : Answers rules machine (next value) target) :
    Answers rules machine (evaluate context run condition >>= next) target := by
  rcases condition' with ⟨payload, position, optimized, facts, children⟩
  subst decided
  have first := (upheld machine inForce).2 (.literal _ _ _ _ _) clear
  have literal : evaluate context run ⟨.literal value, position, optimized, facts, children⟩
      machine = .ok value machine := by
    rw [evaluate_literal, unless_interrupted_clear _ clear]
    rfl
  have both : Answers rules machine (evaluate context run condition >>= next)
      (evaluate context run ⟨.literal value, position, optimized, facts, children⟩ >>=
        fun _ => target) := by
    apply first.bind
    intro value' _ reached
    rw [literal] at reached
    cases reached
    exact answers
  have continues : (evaluate context run ⟨.literal value, position, optimized, facts, children⟩ >>=
      fun _ => target) machine = target machine := bind_of_ok literal
  exact both.congr rfl continues.symm

theorem parameter_upholds {known after : Known} {node node' next next' : Tree}
    {rest rest' : List Tree} {names : List String}
    (first : ∀ machine : Machine, InForce context.registry rules known machine.env →
      DefinesOnly names (evaluateParam context run node) machine ∧
        ∀ param after slot, evaluateParam context run node machine = .ok param after →
          Slot.ofNode? node' = some slot → param.Matches slot)
    (exposes : ∀ name ∈ names, name ∈ node'.exposed) (survives : known.Survives names after)
    (others : Upholds context rules run .parts after (next :: rest) (next' :: rest')) :
    Upholds context rules run .parts known (node :: next :: rest) (node' :: next' :: rest') := by
  intro machine inForce
  rcases first machine inForce with ⟨defines, fits⟩
  rw [evaluateParams, Tree.exposedParts]
  constructor
  · apply (defines.mono exposes).bind
    intro param between done
    have still := inForce.after_action survives defines done
    exact (others between still).1.bind_keeps fun params _ => rfl
  · intro params last slots done analyzed
    rcases bind_eq_ok done with ⟨param, between, made, done'⟩
    rcases bind_eq_ok done' with ⟨params', final, madeRest, built⟩
    cases built
    have still := inForce.after_action survives defines made
    rw [List.dropLast_cons_cons] at analyzed
    simp only [List.mapM_cons, Option.bind_eq_bind, Option.bind_eq_some_iff] at analyzed
    rcases analyzed with ⟨slot, found, slots', foundRest, same⟩
    cases same
    exact .cons (fits param between slot made found)
      ((others between still).2 params' last slots' madeRest foundRest)

theorem default_parameter_fits {known : Known} {expression expression' : Tree} (name : String)
    (position position' place place' : Position) (optimized optimized' settled settled' : Bool)
    (facts facts' noted noted' : Facts) (children children' others others' : List Tree)
    (upheld : Upholds context rules run .node known [expression] [expression']) :
    ∀ machine : Machine, InForce context.registry rules known machine.env →
      DefinesOnly expression'.exposed (evaluateParam context run
        ⟨.call SpecialForm.assignment.name, position, optimized, facts,
          ⟨.variable name, place, settled, noted, children⟩ :: expression :: others⟩) machine ∧
      ∀ param after slot, evaluateParam context run
          ⟨.call SpecialForm.assignment.name, position, optimized, facts,
            ⟨.variable name, place, settled, noted, children⟩ :: expression :: others⟩ machine =
          .ok param after →
        Slot.ofNode? ⟨.call SpecialForm.assignment.name, position', optimized', facts',
          ⟨.variable name, place', settled', noted', children'⟩ :: expression' :: others'⟩ =
          some slot → param.Matches slot := by
  intro machine inForce
  rw [evaluate_param_assigned]
  refine ⟨(upheld machine inForce).1.bind_keeps fun value _ => rfl, ?_⟩
  intro param after slot done analyzed
  rcases bind_eq_ok done with ⟨value, between, evaluated, built⟩
  cases built
  have shape := Tree.parameter_assigned position' optimized' facts' expression' others'
    (rfl : Tree.payload ⟨.variable name, place', settled', noted', children'⟩ = .variable name)
  simp only [Slot.ofNode?, shape] at analyzed
  split at analyzed
  · rename_i constant
    cases analyzed
    refine ⟨rfl, fun default given => ?_⟩
    cases given
    cases payload : expression'.payload with
    | literal literalValue =>
        rw [(decided_condition upheld inForce payload evaluated).1]
        simp [Tree.value?, payload, Payload.value?]
    | _ => simp [Tree.isConstant, payload, Payload.isConstant] at constant
  · cases analyzed

theorem defined_in_force {known after : Known} {name defined : String} {position : Position}
    {optimized : Bool} {facts : Facts} {nameNode : Tree} {parts parts' : List Tree}
    {machine between : Machine} {value : Value} {template : Template}
    (inForce : InForce context.registry rules known machine.env)
    (special : SpecialForm.ofName? name = some .procedure)
    (named : nameNode.procedureName? = some defined)
    (valid : Tree.isProcedureName defined = true)
    (upheld : DefinesOnly (Tree.exposedParts parts') (evaluateParams context run parts) machine ∧
      ∀ params after slots, evaluateParams context run parts machine = .ok params after →
        parts'.dropLast.mapM Slot.ofNode? = some slots →
        List.Forall₂ Param.Matches params slots)
    (slots : parts'.dropLast.mapM Slot.ofNode? = some template.slots)
    (returns : ∃ body params expression,
      Rewrites context.registry rules .node .nothing [bodyOf parts] [body] ∧
      body.returned? = some expression ∧
      template.Describes context.registry params expression)
    (trusted : template.Trusted rules)
    (origin : ∀ other found, after other = some found → other = defined ∧ found = template ∨
      known other = some found ∧ other ≠ defined ∧ other ∉ Tree.exposedParts parts')
    (done : evaluate context run ⟨.call name, position, optimized, facts, nameNode :: parts⟩
      machine = .ok value between) :
    InForce context.registry rules after between.env := by
  rw [evaluate_form _ _ _ _ _ _ special (by simp [SpecialForm.arity])] at done
  rcases evaluate_definition_ok _ _ _ (unless_interrupted_ok done).2 with
    ⟨created, params, middle, found, made, -, rfl⟩
  rw [named] at found
  rcases Option.filter_eq_some_iff.mp found with ⟨same, -⟩
  cases same
  intro other template' known'
  unfold Environment.procedure? Environment.define
  rw [Bindings.find?_put]
  rcases origin other template' known' with ⟨rfl, rfl⟩ | ⟨before, differs, outside⟩
  · rw [if_pos rfl]
    refine ⟨_, rfl, ?_, trusted, returns⟩
    exact upheld.2 params middle _ made slots
  · rw [if_neg differs]
    rcases inForce other template' before with ⟨procedure, bound, implemented⟩
    refine ⟨procedure, ?_, implemented⟩
    rw [← bound]
    exact upheld.1 params middle made other outside

/-- Every rewriting upholds what it should, given that the runner answers for bodies. -/
theorem upholds (apart : rules.inlining = true → context.registry.KeepsNamesApart)
    (faithful : context.registry.FoldsFaithfully) (bodies : AnswersBodies context rules run)
    {part : Part} {known : Known} {nodes nodes' : List Tree}
    (rewritten : Rewrites context.registry rules part known nodes nodes') :
    Upholds context rules run part known nodes nodes' := by
  induction rewritten with
  | literal known value =>
      intro machine inForce
      rw [evaluate_literal, evaluate_literal]
      refine ⟨DefinesOnly.unless_interrupted (.of_keeps fun _ => rfl), fun _ clear => ?_⟩
      exact (Answers.of_except (.ok value) rfl rfl).unless_interrupted clear
  | «variable» known name position =>
      intro machine inForce
      rw [evaluate_variable, evaluate_variable]
      have keeps : KeepsEnvironment (readVariable name position) := fun other =>
        KeepsEnvironment.of_except (other.env.read name position) other
      refine ⟨DefinesOnly.unless_interrupted (.of_keeps keeps), fun _ clear => ?_⟩
      exact (Answers.of_except (machine.env.read name position) rfl rfl).unless_interrupted clear
  | stuck known error ordinary fails =>
      intro machine inForce
      rw [fails context run rfl]
      refine ⟨DefinesOnly.unless_interrupted (.of_keeps fun _ => rfl), fun _ clear => ?_⟩
      exact (Answers.of_except (.error error) rfl rfl).unless_interrupted clear
  | sequence _ _ _ _ _ _ special isSeq special' isSeq' statements induction =>
      intro machine inForce
      rw [evaluate_sequence_node _ _ _ _ _ _ special isSeq,
        evaluate_sequence_node _ _ _ _ _ _ special' isSeq']
      rcases induction machine .void inForce with ⟨defines, answers⟩
      constructor
      · rw [Tree.exposed_sequence special' isSeq']
        exact defines.unless_interrupted
      · intro calm clear
        exact (answers (calm.call_children) clear).unless_interrupted clear
  | branching _ _ _ special form accepted branches chooses induction =>
      intro machine inForce
      rw [evaluate_branch_node _ _ _ _ _ _ special form accepted, chooses.evaluates]
      rcases induction machine inForce with ⟨defines, answers⟩
      constructor
      · exact (defines.mono fun name => (chooses.exposes name).mp).unless_interrupted
      · intro calm clear
        exact (answers (chooses.calm calm) clear).unless_interrupted clear
  | definition _ _ _ _ _ special special' named valid parts body induction inductionBody =>
      intro machine inForce
      refine ⟨?_, fun calm => absurd calm (not_calm_form special' rfl)⟩
      rw [evaluate_form _ _ _ _ _ _ special (by simp [SpecialForm.arity])]
      apply DefinesOnly.unless_interrupted
      apply (evaluate_definition_defines (induction machine inForce).1).mono
      intro name member
      simp only [Tree.exposed, special', List.head?_cons, Option.bind_some, named]
      exact append_subset (List.Subset.refl _) (Tree.exposed_parts_tail _ _) member
  | assignment position optimized optimized' facts facts' special special' target target'
      expression induction =>
      intro machine inForce
      refine ⟨?_, fun calm => absurd calm (not_calm_form special' rfl)⟩
      rw [evaluate_form _ _ _ _ _ _ special (by simp [SpecialForm.arity])]
      apply DefinesOnly.unless_interrupted
      apply (evaluate_assignment_defines target (induction machine inForce).1).mono
      intro name member
      simp only [Tree.exposed, special', Tree.exposedAll, List.append_nil]
      exact List.mem_append_right _ member
  | returning _ _ _ _ _ _ special special' accepted accepted' statements induction =>
      intro machine inForce
      rcases induction machine .void inForce with ⟨defines, answers⟩
      rw [evaluate_form _ _ _ _ _ _ special accepted, evaluate_form _ _ _ _ _ _ special' accepted']
      constructor
      · apply DefinesOnly.unless_interrupted
        intro value after done
        rcases bind_eq_ok done with ⟨returned, between, -, thrown⟩
        cases thrown
      · intro calm clear
        apply Answers.unless_interrupted _ clear
        apply (answers (calm.call_children) clear).bind
        exact fun value _ _ => Answers.of_except (.error (.returned value)) rfl rfl
  | closure _ _ _ _ _ special special' parts same body induction inductionBody =>
      intro machine inForce
      refine ⟨?_, fun calm => absurd calm (not_calm_form special' rfl)⟩
      rw [evaluate_form _ _ _ _ _ _ special (by simp [SpecialForm.arity])]
      apply DefinesOnly.unless_interrupted
      apply ((induction machine inForce).1.mono _).bind_keeps
      · exact fun params => KeepsEnvironment.capture_closure params _ _
      · intro name member
        simpa only [Tree.exposed, special'] using member
  | execution _ _ _ _ _ special special' accepted accepted' arguments induction =>
      intro machine inForce
      refine ⟨?_, fun calm => absurd calm (not_calm_form special' rfl)⟩
      rw [evaluate_form _ _ _ _ _ _ special accepted]
      apply DefinesOnly.unless_interrupted
      apply ((induction machine inForce).1.mono _).bind_keeps
      · exact fun values => KeepsEnvironment.call_value context run _ values
      · intro name member
        simpa only [Tree.exposed, special'] using member
  | procedureCall position optimized optimized' facts facts' plain named arguments induction =>
      intro machine inForce
      rcases induction machine inForce with ⟨defines, answers⟩
      constructor
      · rw [evaluate_call _ _ _ _ _ _ plain named]
        apply DefinesOnly.unless_interrupted
        simp only [Tree.exposed, plain]
        exact evaluate_call_defines defines
      · intro calm clear
        rw [calm.calls_no_procedure plain] at named
        cases named
  | builtinCall position optimized optimized' facts facts' plain named found arguments induction =>
      intro machine inForce
      rcases induction machine inForce with ⟨defines, answers⟩
      rw [evaluate_builtin _ _ _ _ _ _ plain named found,
        evaluate_builtin _ _ _ _ _ _ plain named found]
      constructor
      · apply DefinesOnly.unless_interrupted
        simp only [Tree.exposed, plain]
        exact defines.bind_keeps fun values =>
          KeepsEnvironment.call_builtin context _ _ position values
      · intro calm clear
        apply Answers.unless_interrupted _ clear
        cases calm with
        | form _ _ _ special allowed below =>
            rw [plain] at special
            cases special
        | function _ _ _ _ unnamed found' isPure below =>
            rw [found] at found'
            cases found'
            apply (answers below clear).bind
            intro values _ _
            have pureResult := call_builtin_pure faithful.computes_purely found isPure position
              values machine
            exact Answers.of_except _ pureResult pureResult
  | fold position position' _ _ _ _ plain named found accepted arguments constant foldable ran
      induction =>
      intro machine inForce
      rcases induction machine inForce with ⟨defines, answers⟩
      rw [evaluate_builtin _ _ _ _ _ _ plain named found]
      constructor
      · apply DefinesOnly.unless_interrupted
        rw [exposed_all_constant constant] at defines
        apply (defines.mono _).bind_keeps fun values =>
          KeepsEnvironment.call_builtin context _ _ position values
        simp
      · intro _ clear
        rw [evaluate_literal]
        apply Answers.unless_interrupted _ clear
        exact folded_call_answers faithful found accepted constant foldable ran clear
          (answers (constant_calm constant) clear)
  | @inline known after name template position optimized facts children children' replacement
      node' inlining plain named arguments survives found instantiated nothing replaced induction
      inductionReplaced =>
      intro machine inForce
      rcases induction machine inForce with ⟨defines, answers⟩
      have calmArguments : ∀ argument ∈ children', argument.Calm context.registry :=
        fun argument member => (Tree.quiet_of_side_effect_free (apart inlining) argument
          ((accepts_parts (instantiate_accepts instantiated)).2 argument member)).calm
      rw [Tree.exposed_all_calm calmArguments] at defines survives
      rw [evaluate_call _ _ _ _ _ _ plain named]
      constructor
      · apply DefinesOnly.unless_interrupted
        apply (evaluate_call_defines defines).mono
        simp
      · intro calm clear
        have still : InForce context.registry rules after machine.env :=
          inForce.survives survives fun name _ => rfl
        rcases still name template found with ⟨procedure, bound, implemented⟩
        have calls := known_call_answers bodies (apart inlining) faithful.computes_purely clear
          implemented
          instantiated (answers calmArguments clear)
        have becomes := (inductionReplaced machine still).2 calm clear
        apply Answers.congr (calls.trans becomes) _ rfl
        rw [unless_interrupted_clear _ clear]
        exact evaluate_call_found _ _ _ _ bound
  | same rewritten same induction =>
      intro machine inForce
      rcases induction machine inForce with ⟨defines, answers⟩
      refine ⟨defines.mono fun name => (same.exposes name).mp, fun calm clear => ?_⟩
      exact (answers (same.calm calm) clear).congr rfl (by rw [same.evaluates])
  | noArguments known =>
      intro machine inForce
      exact ⟨.of_keeps fun _ => rfl, fun _ _ => Answers.of_except (.ok []) rfl rfl⟩
  | argument node survives rest induction inductionRest =>
      intro machine inForce
      rcases induction machine inForce with ⟨defines, answers⟩
      constructor
      · rw [evaluateAll, Tree.exposedAll]
        apply defines.bind
        intro value between done
        have still := inForce.after_action survives defines done
        exact (inductionRest between still).1.bind_keeps fun values _ => rfl
      · intro calm clear
        rw [evaluateAll, evaluateAll]
        apply (answers (calm _ List.mem_cons_self) clear).bind
        intro value done _
        have still := inForce.after_action survives defines done
        apply ((inductionRest machine still).2
          (fun other member => calm other (List.mem_cons_of_mem _ member)) clear).bind
        exact fun values _ _ => Answers.of_except (.ok (value :: values)) rfl rfl
  | noStatements known =>
      intro machine last inForce
      exact ⟨.of_keeps fun _ => rfl, fun _ _ => Answers.of_except (.ok last) rfl rfl⟩
  | statement node survives spreads rest induction inductionRest =>
      intro machine last inForce
      rcases induction machine inForce with ⟨defines, answers⟩
      constructor
      · rw [evaluateSequence]
        have both := defines.bind fun value between done =>
          (inductionRest between value (inForce.after_action survives defines done)).1
        apply both.mono
        intro name member
        rw [Tree.exposed_all_append]
        rcases List.mem_append.mp member with own | later
        · exact List.mem_append_left _ ((spreads.exposes name).mp own)
        · exact List.mem_append_right _ later
      · intro calm clear
        rw [evaluateSequence, evaluate_sequence_append, spreads.evaluates]
        have calmFront := spreads.calm fun other member => calm other
          (List.mem_append_left _ member)
        apply (answers calmFront clear).bind
        intro value done _
        have still := inForce.after_action survives defines done
        exact (inductionRest machine value still).2
          (fun other member => calm other (List.mem_append_right _ member)) clear
  | @definitionStatement known after name name' defined position optimized optimized' facts facts'
      nameNode nameNode' parts parts' rest rest' template body' expression special special' named
      named' valid rewrittenParts body sameBody returned described trusted known rewrittenRest
      induction inductionBody inductionRest =>
      intro machine last inForce
      constructor
      · rw [evaluateSequence, Tree.exposedAll]
        have defines := (induction machine inForce).1
        have made : DefinesOnly (nameNode.procedureName?.toList ++ Tree.exposedParts parts')
            (evaluate context run ⟨.call name, position, optimized, facts, nameNode :: parts⟩)
            machine := by
          rw [evaluate_form _ _ _ _ _ _ special (by simp [SpecialForm.arity])]
          exact (evaluate_definition_defines defines).unless_interrupted
        have both := made.bind fun value between done =>
          (inductionRest between value (defined_in_force inForce special named valid
            (induction machine inForce) described.slots ⟨_, _, _, body, returned, described⟩
            trusted known done)).1
        apply both.mono
        intro other member
        rw [List.mem_append] at member ⊢
        apply member.imp_left
        intro own
        simp only [Tree.exposed, special', List.head?_cons, Option.bind_some, named']
        rw [named] at own
        exact append_subset (List.Subset.refl _) (Tree.exposed_parts_tail _ _) own
      · intro calm
        exact absurd (calm _ List.mem_cons_self) (not_calm_form special' rfl)
  | noBranches known =>
      intro machine inForce
      exact ⟨.of_keeps fun _ => rfl, fun _ _ => Answers.of_except (.ok .void) rfl rfl⟩
  | otherwise node induction =>
      intro machine inForce
      rcases induction machine inForce with ⟨defines, answers⟩
      simp only [evaluateBranches, Tree.exposedAll, List.append_nil]
      exact ⟨defines, fun calm clear => answers (calm _ List.mem_cons_self) clear⟩
  | taken condition decided truth survives branch induction inductionBranch =>
      intro machine inForce
      have still := inForce.survives survives fun name _ => rfl
      rcases inductionBranch machine still with ⟨defines, answers⟩
      constructor
      · intro value after done
        rw [evaluateBranches] at done
        rcases bind_eq_ok done with ⟨decision, between, evaluated, chosen⟩
        rcases decided_condition induction inForce decided evaluated with ⟨rfl, rfl⟩
        rw [if_pos truth] at chosen
        simpa [Tree.exposedAll] using defines value after chosen
      · intro calm clear
        rw [evaluateBranches, evaluateBranches]
        apply decided_branches_answer induction inForce decided clear
        rw [if_pos truth]
        exact answers (calm _ List.mem_cons_self) clear
  | dropped condition decided truth survives rest induction inductionRest =>
      intro machine inForce
      have still := inForce.survives survives fun name _ => rfl
      rcases inductionRest machine still with ⟨defines, answers⟩
      constructor
      · intro value after done
        rw [evaluateBranches] at done
        rcases bind_eq_ok done with ⟨decision, between, evaluated, chosen⟩
        rcases decided_condition induction inForce decided evaluated with ⟨rfl, rfl⟩
        rw [if_neg (by simp [truth])] at chosen
        exact defines value after chosen
      · intro calm clear
        rw [evaluateBranches]
        apply decided_branches_answer induction inForce decided clear
        rw [if_neg (by simp [truth])]
        exact answers calm clear
  | undecided condition survives branch survivesBranch rest induction inductionBranch
      inductionRest =>
      intro machine inForce
      rcases induction machine inForce with ⟨defines, answers⟩
      constructor
      · rw [evaluateBranches, Tree.exposedAll, Tree.exposedAll]
        apply defines.bind
        intro decision between evaluated
        have still := inForce.after_action survives defines evaluated
        have later := still.survives survivesBranch fun name _ => rfl
        split
        · exact (inductionBranch between still).1.mono fun name => List.mem_append_left _
        · exact (inductionRest between later).1.mono fun name => List.mem_append_right _
      · intro calm clear
        rw [evaluateBranches, evaluateBranches]
        apply (answers (calm _ List.mem_cons_self) clear).bind
        intro decision evaluated _
        have still := inForce.after_action survives defines evaluated
        have later := still.survives survivesBranch fun name _ => rfl
        split
        · exact (inductionBranch machine still).2 (calm _ (by simp)) clear
        · exact (inductionRest machine later).2 (fun other member => calm other (by simp [member]))
            clear
  | noParts known =>
      intro machine inForce
      refine ⟨.of_keeps fun _ => rfl, fun params after slots done analyzed => ?_⟩
      cases done
      cases analyzed
      exact .nil
  | body known node node' =>
      intro machine inForce
      refine ⟨.of_keeps fun _ => rfl, fun params after slots done analyzed => ?_⟩
      cases done
      cases analyzed
      exact .nil
  | @plainParameter known name node node' next next' rest rest' shape shape' later induction =>
      rcases node with ⟨payload, position, optimized, facts, children⟩
      rcases node' with ⟨payload', position', optimized', facts', children'⟩
      subst shape shape'
      have first : ∀ machine, InForce context.registry rules known machine.env →
          DefinesOnly [] (evaluateParam context run
            ⟨.variable name, position, optimized, facts, children⟩) machine ∧
          ∀ param after slot, evaluateParam context run
              ⟨.variable name, position, optimized, facts, children⟩ machine = .ok param after →
            Slot.ofNode? ⟨.variable name, position', optimized', facts', children'⟩ = some slot →
            param.Matches slot := by
        intro machine inForce
        simp only [evaluateParam]
        refine ⟨.of_keeps fun _ => rfl, fun param after slot done analyzed => ?_⟩
        cases done
        cases analyzed
        exact ⟨rfl, fun default none => by cases none⟩
      apply parameter_upholds first (by simp) _ induction
      exact fun other template found => ⟨found, by simp⟩
  | @defaultParameter known after name position position' optimized optimized' facts facts' first
      first' expression expression' next next' others others' rest rest' target target' fewer
      rewritten survives later induction inductionRest =>
      rcases first with ⟨payload, place, settled, noted, children⟩
      rcases first' with ⟨payload', place', settled', noted', children'⟩
      subst target target'
      apply parameter_upholds (default_parameter_fits _ _ _ _ _ _ _ _ _ _ _ _ _ _ _ _ _ induction)
        _ survives inductionRest
      intro other member
      simp only [Tree.exposed, SpecialForm.ofName?_name, Tree.exposedAll]
      exact List.mem_append_right _ (List.mem_append_left _ member)
  | malformedParameter known shape kept fewer =>
      intro machine inForce
      rw [evaluateParams, evaluate_param_malformed _ _ shape]
      constructor
      · intro value after done
        cases done
      · intro params after slots done
        cases done

theorem returning_calm {registry : Registry} {body expression : Tree}
    (returned : body.returned? = some expression) (quiet : expression.Quiet registry) :
    body.Calm registry := by
  rcases Tree.returned_eq_some returned with ⟨named, only⟩
  rcases body with ⟨payload, position, optimized, facts, children⟩
  simp only at named only
  subst named only
  apply Tree.CallsOnly.form _ _ _ (SpecialForm.ofName?_name .returning) rfl
  intro child member
  rw [List.mem_singleton] at member
  rw [member]
  exact quiet.calm

theorem answers_bodies (apart : rules.inlining = true → context.registry.KeepsNamesApart)
    (faithful : context.registry.FoldsFaithfully) (calls : Nat) :
    AnswersBodies context rules (bodyRunner context calls) := by
  induction calls with
  | zero =>
      intro body body' expression rewritten returned quiet machine clear
      exact Answers.overflow rfl
  | succ calls induction =>
      intro body body' expression rewritten returned quiet machine clear
      have upheld : Upholds context rules (bodyRunner context calls) .node .nothing [body]
          [body'] :=
        upholds apart faithful induction rewritten
      have answers := (upheld machine .nothing).2 (returning_calm returned quiet) clear
      exact answers.congr rfl
        (evaluate_returning _ faithful.computes_purely clear returned quiet).symm

/-- Every rewriting upholds what it should, however many calls are left. -/
theorem rewriting_upholds (apart : rules.inlining = true → context.registry.KeepsNamesApart)
    (faithful : context.registry.FoldsFaithfully) {part : Part} {known : Known}
    {nodes nodes' : List Tree}
    (rewritten : Rewrites context.registry rules part known nodes nodes') (calls : Nat) :
    Upholds context rules (bodyRunner context calls) part known nodes nodes' :=
  upholds apart faithful (answers_bodies apart faithful calls) rewritten

end Upholding

end TreeScript
