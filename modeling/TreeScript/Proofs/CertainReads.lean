import TreeScript.Proofs.Standard
/-!
# Reads that no evaluation gets around

A parameter may be replaced by an argument that is not constant only if every path through the
expression reads it. The optimizer decides this by the tree alone: of a conditional, however it is
nested, it counts the first condition and nothing else.

Main statement: an expression without side effects fails wherever such a variable is unbound.
Nothing is assumed of its functions. They may write lines, count their calls or interrupt the
evaluation; but the environment is only given to them to read, so whatever has been evaluated before
the variable is read, the variable is still unbound.
-/

namespace TreeScript

set_option autoImplicit false

/-- An action that may change the store, but neither the environment nor the course of the body
around it: what it fails with is an error of its own. -/
structure Contained {Result : Type} (action : Run Result) : Prop where
  keeps : KeepsEnvironment action
  ordinary : ∀ {machine error after}, action machine = .error error after →
    error.isOrdinary = true

namespace Contained

variable {Item Result : Type}

theorem pure (item : Item) : Contained (Pure.pure item : Run Item) :=
  ⟨fun _ => rfl, nofun⟩

theorem throw {error : EvalError} (ordinary : error.isOrdinary = true) :
    Contained (MonadExcept.throw error : Run Item) := by
  refine ⟨fun _ => rfl, fun failed => ?_⟩
  cases failed
  exact ordinary

theorem bind {action : Run Item} {next : Item → Run Result} (first : Contained action)
    (others : ∀ item, Contained (next item)) : Contained (action >>= next) := by
  refine ⟨first.keeps.bind fun item => (others item).keeps, fun {machine error after} failed => ?_⟩
  rw [bind_apply] at failed
  cases outcome : action machine with
  | ok item between =>
      rw [outcome] at failed
      exact (others item).ordinary failed
  | error cause between =>
      rw [outcome] at failed
      cases failed
      exact first.ordinary outcome

theorem unless_interrupted {action : Run Item} (contained : Contained action) :
    Contained (unlessInterrupted action) := by
  constructor
  · intro machine
    cases flag : machine.store.interrupted with
    | true => rw [unless_interrupted_set _ flag, finalMachine]
    | false =>
        rw [unless_interrupted_clear _ flag]
        exact contained.keeps machine
  · intro machine error after failed
    cases flag : machine.store.interrupted with
    | true =>
        rw [unless_interrupted_set _ flag] at failed
        cases failed
        rfl
    | false =>
        rw [unless_interrupted_clear _ flag] at failed
        exact contained.ordinary failed

theorem read_variable (name : String) (position : Position) :
    Contained (readVariable name position) := by
  refine ⟨fun machine => KeepsEnvironment.of_except _ machine,
    fun {machine error after} failed => ?_⟩
  unfold readVariable at failed
  cases outcome : machine.env.read name position with
  | ok value =>
      rw [outcome] at failed
      cases failed
  | error cause =>
      rw [outcome] at failed
      cases failed
      exact reading_ordinary machine.env name position error outcome

/-- A function is shown the environment but cannot change it, whatever it does. -/
theorem call_builtin (context : Context) (builtin : Builtin) (name : String) (position : Position)
    (arguments : List Value) :
    Contained (callBuiltin context builtin name position arguments) := by
  refine ⟨.call_builtin context builtin name position arguments,
    fun {machine error after} failed => ?_⟩
  cases accepted : builtin.arity.accepts arguments.length with
  | true =>
      rw [call_builtin_accepted accepted] at failed
      split at failed
      · cases failed
      · cases failed
        rfl
  | false =>
      rw [call_builtin_refused accepted] at failed
      cases failed
      rfl

end Contained

/-- An action that succeeds only where the variable is bound. -/
def Needs {Result : Type} (name : String) (action : Run Result) : Prop :=
  ∀ machine result after, action machine = .ok result after →
    ∃ value, machine.env.get? name = some value

namespace Needs

variable {Item Result : Type} {name : String}

theorem first {action : Run Item} (needs : Needs name action) (next : Item → Run Result) :
    Needs name (action >>= next) := by
  intro machine result after done
  obtain ⟨item, between, started, -⟩ := bind_eq_ok done
  exact needs machine item between started

theorem later {action : Run Item} {next : Item → Run Result} (keeps : KeepsEnvironment action)
    (needs : ∀ item, Needs name (next item)) : Needs name (action >>= next) := by
  intro machine result after done
  obtain ⟨item, between, started, continued⟩ := bind_eq_ok done
  obtain ⟨value, bound⟩ := needs item between result after continued
  rw [keeps.of_ok started] at bound
  exact ⟨value, bound⟩

theorem unless_interrupted {action : Run Item} (needs : Needs name action) :
    Needs name (unlessInterrupted action) := by
  intro machine result after done
  exact needs machine result after (unless_interrupted_ok done).2

theorem throw (error : EvalError) : Needs name (MonadExcept.throw error : Run Item) := by
  intro machine result after done
  cases done

theorem read_variable (position : Position) : Needs name (readVariable name position) := by
  intro machine result after done
  unfold readVariable Environment.read at done
  cases bound : machine.env.get? name with
  | some value => exact ⟨value, rfl⟩
  | none =>
      rw [bound] at done
      cases done

end Needs

section Evaluation

variable {context : Context} {run : Tree → Run Value} {children : List Tree} {child : Tree}
  {name : String}

/-- A sequence evaluates its statements like arguments and keeps the last of the values. -/
theorem evaluate_sequence_last (context : Context) (run : Tree → Run Value) (last : Value)
    (children : List Tree) :
    evaluateSequence context run last children =
      (evaluateAll context run children >>= fun values => pure (values.getLast?.getD last)) := by
  induction children generalizing last with
  | nil => rfl
  | cons statement rest induction =>
      rw [evaluateSequence, evaluateAll, bind_assoc]
      congr 1
      funext value
      rw [induction value, bind_assoc]
      congr 1
      funext values
      rw [pure_bind, List.getLast?_cons, Option.getD_some]

theorem evaluate_all_contained
    (contained : ∀ child ∈ children, Contained (evaluate context run child)) :
    Contained (evaluateAll context run children) := by
  induction children with
  | nil =>
      rw [evaluateAll]
      exact .pure []
  | cons first rest induction =>
      rw [List.forall_mem_cons] at contained
      rw [evaluateAll]
      exact contained.1.bind fun value => (induction contained.2).bind fun values => .pure _

theorem evaluate_branches_contained : (children : List Tree) →
    (∀ child ∈ children, Contained (evaluate context run child)) →
    Contained (evaluateBranches context run children)
  | [], _ => by
      rw [evaluateBranches]
      exact .pure Value.void
  | [otherwise], contained => by
      rw [evaluateBranches]
      exact contained otherwise List.mem_cons_self
  | condition :: branch :: rest, contained => by
      rw [List.forall_mem_cons, List.forall_mem_cons] at contained
      obtain ⟨decides, taken, others⟩ := contained
      rw [evaluateBranches]
      refine decides.bind fun decision => ?_
      split
      · exact taken
      · exact evaluate_branches_contained rest others

/-- An expression is contained even where its functions are not what they promise to be. -/
theorem evaluate_contained {tree : Tree} (quiet : tree.Quiet context.registry) :
    Contained (evaluate context run tree) := by
  induction quiet with
  | literal value position optimized facts children =>
      rw [evaluate_literal]
      exact (Contained.pure value).unless_interrupted
  | «variable» read position optimized facts children =>
      rw [evaluate_variable]
      exact (Contained.read_variable read position).unless_interrupted
  | @form called kind position optimized facts children special transparent below contained =>
      cases accepted : kind.arity.accepts children.length with
      | false =>
          rw [evaluate_mismatch _ _ _ _ _ _ special accepted]
          exact (Contained.throw rfl).unless_interrupted
      | true =>
          rw [evaluate_form _ _ _ _ _ _ special accepted]
          apply Contained.unless_interrupted
          cases kind with
          | autoConcat | sequence =>
              rw [evaluateForm, evaluate_sequence_last]
              exact (evaluate_all_contained contained).bind fun values => .pure _
          | conditional | choice => exact evaluate_branches_contained children contained
          | _ => cases transparent
  | @function called builtin position optimized facts children plain unnamed found isPure below
      contained =>
      rw [evaluate_builtin _ _ _ _ _ _ plain unnamed found]
      exact ((evaluate_all_contained contained).bind fun values =>
        .call_builtin context builtin called position values).unless_interrupted

theorem evaluate_all_needs
    (contained : ∀ child ∈ children, Contained (evaluate context run child))
    (member : child ∈ children) (needs : Needs name (evaluate context run child)) :
    Needs name (evaluateAll context run children) := by
  induction children with
  | nil => cases member
  | cons first rest induction =>
      rw [List.forall_mem_cons] at contained
      rw [evaluateAll]
      cases member with
      | head => exact needs.first _
      | tail _ among =>
          exact .later contained.1.keeps fun value => (induction contained.2 among).first _

/-- Of conditions and branches the first is evaluated whatever comes of it. -/
theorem evaluate_branches_needs (certain : name ∈ Tree.firstReads children)
    (needs : ∀ child ∈ children, name ∈ child.certainReads →
      Needs name (evaluate context run child)) :
    Needs name (evaluateBranches context run children) := by
  match children with
  | [] => cases certain
  | [otherwise] =>
      rw [evaluateBranches]
      exact needs otherwise List.mem_cons_self certain
  | condition :: branch :: rest =>
      rw [evaluateBranches]
      exact (needs condition List.mem_cons_self certain).first _

/-- Every variable that the optimizer takes to be read on each path is needed, by induction on what
the expression calls. -/
theorem evaluate_needs {tree : Tree} (quiet : tree.Quiet context.registry)
    (bare : tree.Everywhere Tree.BareLeaf) (certain : name ∈ tree.certainReads) :
    Needs name (evaluate context run tree) := by
  induction quiet with
  | literal value position optimized facts children =>
      obtain rfl : children = [] := bare.here rfl
      cases certain
  | «variable» read position optimized facts children =>
      obtain rfl : children = [] := bare.here rfl
      obtain rfl : name = read := List.mem_singleton.mp certain
      rw [evaluate_variable]
      exact (Needs.read_variable position).unless_interrupted
  | @form called kind position optimized facts children special transparent below induction =>
      have needs : ∀ child ∈ children, name ∈ child.certainReads →
          Needs name (evaluate context run child) :=
        fun child member => induction child member (bare.inside child member)
      cases accepted : kind.arity.accepts children.length with
      | false =>
          rw [evaluate_mismatch _ _ _ _ _ _ special accepted]
          exact (Needs.throw _).unless_interrupted
      | true =>
          rw [evaluate_form _ _ _ _ _ _ special accepted]
          apply Needs.unless_interrupted
          cases kind with
          | autoConcat | sequence =>
              rw [Tree.certain_reads_call, special] at certain
              obtain ⟨child, member, reads⟩ := (Tree.mem_all_reads children).mp certain
              rw [evaluateForm, evaluate_sequence_last]
              have contained : ∀ child ∈ children, Contained (evaluate context run child) :=
                fun child member => evaluate_contained (below child member)
              exact (evaluate_all_needs contained member (needs child member reads)).first _
          | conditional | choice =>
              rw [Tree.certain_reads_call, special] at certain
              exact evaluate_branches_needs certain needs
          | _ => cases transparent
  | @function called builtin position optimized facts children plain unnamed found isPure below
      induction =>
      rw [Tree.certain_reads_call, plain] at certain
      obtain ⟨child, member, reads⟩ := (Tree.mem_all_reads children).mp certain
      rw [evaluate_builtin _ _ _ _ _ _ plain unnamed found]
      have needed := induction child member (bare.inside child member) reads
      exact ((evaluate_all_needs (fun child member => evaluate_contained (below child member))
        member needed).first _).unless_interrupted

end Evaluation

/-- Where a variable is unbound that is read on each path through an expression without side
effects, evaluating the expression fails. It fails with an error that also ends a whole script,
since it is no return, and it leaves the environment as it was. -/
theorem certain_read_fails {context : Context} (apart : context.registry.KeepsNamesApart)
    {tree : Tree} (accepted : tree.isSideEffectFree context.registry = true)
    (bare : tree.Everywhere Tree.BareLeaf) {name : String} (certain : name ∈ tree.certainReads)
    {machine : Machine} (unbound : machine.env.get? name = none) :
    ∃ error after, tree.eval context machine = .error error after ∧
      tree.execute context machine = .error error after ∧ error.isOrdinary = true ∧
      after.env = machine.env := by
  have quiet := Tree.quiet_of_side_effect_free apart tree accepted
  rw [Tree.execute, eval_apply]
  generalize bodyRunner context (context.maxDepth - machine.env.depth) = run
  have contained : Contained (evaluate context run tree) := evaluate_contained quiet
  have needs : Needs name (evaluate context run tree) := evaluate_needs quiet bare certain
  have kept := contained.keeps machine
  cases outcome : evaluate context run tree machine with
  | ok value after =>
      obtain ⟨value', bound⟩ := needs machine value after outcome
      rw [unbound] at bound
      cases bound
  | error error after =>
      have ordinary := contained.ordinary outcome
      rw [outcome] at kept
      refine ⟨error, after, rfl, ?_, ordinary, kept⟩
      cases error with
      | returned value => cases ordinary
      | _ => rfl

/-- The sum is the first condition of a choice among the arguments of a call. Without its variable
there is no value, although both branches are constants. -/
theorem certain_read_fails_of_choice :
    let tree : Tree := .call "equals" [.literal (.int 1) .unknown,
      .call SpecialForm.choice.name [.call "add" [.node (.variable "@x") [] .unknown,
          .literal (.int 2) .unknown] .unknown,
        .literal (.int 3) .unknown, .literal (.int 4) .unknown] .unknown] .unknown
    ∃ error after, tree.eval .standard {} = .error error after ∧
      tree.execute .standard {} = .error error after ∧ error.isOrdinary = true ∧
      after.env = {} :=
  certain_read_fails (Registry.of_list_apart Prelude.builtins_reliable) (by decide +kernel)
    (by decide) (List.mem_singleton_self "@x") rfl

end TreeScript
