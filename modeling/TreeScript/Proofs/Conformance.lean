import TreeScript.Proofs.Quiet
import TreeScript.Proofs.Likeness
/-!
# Runs that conform

Two runs from machines that are alike conform if they end the same way, on machines that are alike
again. A lenient comparison asks for less where the first run fails: if it fails for want of calls
the second may end in any way, and if it fails otherwise the second only has to fail too.
-/

namespace TreeScript

set_option autoImplicit false

structure Machine.Matches (bodies : Bodies) (machine machine' : Machine) : Prop where
  like : machine.Like bodies machine'
  clear : machine.store.interrupted = false

namespace EvalError

def isReturn : EvalError → Bool
  | returned _ => true
  | _ => false

end EvalError

inductive Conforms (lenient : Bool) (bodies : Bodies) {Result : Type}
    (like : Result → Result → Prop) :
    EStateM.Result EvalError Machine Result → EStateM.Result EvalError Machine Result → Prop where
  | ok {result result' : Result} {machine machine' : Machine} : like result result' →
      machine.Matches bodies machine' →
      Conforms lenient bodies like (.ok result machine) (.ok result' machine')
  | returned {value value' : Value} {machine machine' : Machine} : value.Like bodies value' →
      machine.Matches bodies machine' →
      Conforms lenient bodies like (.error (.returned value) machine)
        (.error (.returned value') machine')
  | same {error : EvalError} {machine machine' : Machine} : error.isReturn = false →
      machine.Matches bodies machine' →
      Conforms lenient bodies like (.error error machine) (.error error machine')
  | failed {error error' : EvalError} {machine machine' : Machine} : lenient = true →
      error.isOrdinary = true → error'.isOrdinary = true →
      Conforms lenient bodies like (.error error machine) (.error error' machine')
  | excused {depth limit : Nat} {machine : Machine}
      {result : EStateM.Result EvalError Machine Result} : lenient = true →
      Conforms lenient bodies like (.error (.stackOverflow depth limit) machine) result

inductive Concurs (bodies : Bodies) :
    EStateM.Result Fault Store Value → EStateM.Result Fault Store Value → Prop where
  | ok {value value' : Value} {store store' : Store} : value.Like bodies value' →
      store.Like bodies store' → Concurs bodies (.ok value store) (.ok value' store')
  | error (fault : Fault) {store store' : Store} : store.Like bodies store' →
      Concurs bodies (.error fault store) (.error fault store')

namespace Registry

/-- Functions that come to the same wherever only bodies differ, and then only in bodies. -/
def Respects (registry : Registry) (bodies : Bodies) : Prop :=
  ∀ name builtin, registry.find? name = some builtin →
    ∀ position (env env' : Environment) arguments arguments' (store store' : Store),
      env.Like bodies env' → ValuesLike bodies arguments arguments' → store.Like bodies store' →
        Concurs bodies
          (builtin.run ⟨position, some env, registry.catalogue⟩ arguments store)
          (builtin.run ⟨position, some env', registry.catalogue⟩ arguments' store')

/-- No function looks into the bodies of procedures: whatever bodies stand for each other, what
comes out is the same. -/
def IgnoresProcedures (registry : Registry) : Prop :=
  ∀ relation : Tree → Tree → Prop, (∀ body, relation body body) →
    registry.Respects ⟨Eq, relation⟩

/-- No function looks into the bodies of procedures or closures. -/
def IgnoresBodies (registry : Registry) : Prop :=
  ∀ relation : Tree → Tree → Prop, (∀ body, relation body body) →
    registry.Respects ⟨relation, relation⟩

def NeverInterrupts (registry : Registry) : Prop :=
  ∀ name builtin, registry.find? name = some builtin →
    ∀ site arguments (store : Store), store.interrupted = false →
      match builtin.run site arguments store with
      | .ok _ after | .error _ after => after.interrupted = false

end Registry

theorem EvalError.ordinary_no_return {error : EvalError} (ordinary : error.isOrdinary = true) :
    error.isReturn = false := by
  cases error <;> first | rfl | cases ordinary

theorem copying_apply {Item : Type} (action : Copying Item) (machine : Machine) :
    Run.copying (Store.copying action) machine =
      match action machine.store.resources with
      | .ok item fresh =>
          .ok item { machine with store := { machine.store with resources := fresh } }
      | .error error fresh =>
          .error (.copy error)
            { machine with store := { machine.store with resources := fresh } } := by
  unfold Run.copying Store.copying
  cases action machine.store.resources <;> rfl

theorem capture_closure_apply (params : List Param) (body : Tree) (position : Position)
    (machine : Machine) :
    captureClosure params body position machine =
      match machine.env.copy machine.store.resources with
      | .ok env fresh =>
          .ok (.closure ⟨machine.store.captured.size, params, body, position⟩)
            { machine with store := { machine.store with
                resources := fresh, captured := machine.store.captured.push env } }
      | .error error fresh =>
          .error (.copy error)
            { machine with store := { machine.store with resources := fresh } } := by
  change (Run.copying (Store.newClosure params body position machine.env) >>= fun closure =>
    pure (Value.closure closure)) machine = _
  simp only [bind_apply, Run.copying, Store.newClosure, Store.copying]
  cases machine.env.copy machine.store.resources <;> rfl

def leaveBody (machine : Machine) :
    EStateM.Result EvalError Machine Value → EStateM.Result EvalError Machine Value
  | .ok _ after => .ok .void { machine with store := after.store }
  | .error (.returned value) after => .ok value { machine with store := after.store }
  | .error error after => .error error { machine with store := after.store }

theorem run_body_apply (run : Tree → Run Value) (scope : Environment) (body : Tree)
    (machine : Machine) :
    runBody run scope body machine = leaveBody machine (run body ⟨scope, machine.store⟩) := rfl

theorem leave_body_error {error : EvalError} (other : error.isReturn = false)
    (machine after : Machine) :
    leaveBody machine (.error error after) =
      .error error { machine with store := after.store } := by
  cases error <;> first | rfl | cases other

section Actions

variable {lenient : Bool} {bodies : Bodies} {Item Result : Type} {like : Item → Item → Prop}
  {like' : Result → Result → Prop} {machine machine' : Machine}

theorem Machine.Matches.clear' (matched : machine.Matches bodies machine') :
    machine'.store.interrupted = false :=
  matched.like.store.interrupted.symm.trans matched.clear

namespace Conforms

theorem bind {action action' : Run Item} {next next' : Item → Run Result}
    (first : Conforms lenient bodies like (action machine) (action' machine'))
    (others : ∀ item item' between between', like item item' → between.Matches bodies between' →
      action machine = .ok item between →
      Conforms lenient bodies like' (next item between) (next' item' between')) :
    Conforms lenient bodies like' ((action >>= next) machine) ((action' >>= next') machine') := by
  rw [bind_apply, bind_apply]
  generalize begun : action machine = outcome at first others
  generalize action' machine' = outcome' at first
  cases first with
  | ok related matched => exact others _ _ _ _ related matched rfl
  | returned related matched => exact .returned related matched
  | same other matched => exact .same other matched
  | failed on ordinary ordinary' => exact .failed on ordinary ordinary'
  | excused on => exact .excused on

theorem unless_interrupted {action action' : Run Item} (matched : machine.Matches bodies machine')
    (conforms : Conforms lenient bodies like (action machine) (action' machine')) :
    Conforms lenient bodies like (unlessInterrupted action machine)
      (unlessInterrupted action' machine') := by
  rw [unless_interrupted_clear _ matched.clear, unless_interrupted_clear _ matched.clear']
  exact conforms

theorem copying {action action' : Copying Item} (matched : machine.Matches bodies machine')
    (copied : ∀ fresh, Copied like (action fresh) (action' fresh)) :
    Conforms lenient bodies like (Run.copying (Store.copying action) machine)
      (Run.copying (Store.copying action') machine') := by
  have done := copied machine.store.resources
  have same := matched.like.store.resources
  have matches' : ∀ fresh, Machine.Matches bodies
      { machine with store := { machine.store with resources := fresh } }
      { machine' with store := { machine'.store with resources := fresh } } := fun fresh =>
    ⟨⟨matched.like.env, { matched.like.store with resources := rfl }⟩, matched.clear⟩
  rw [copying_apply, copying_apply, ← same]
  generalize action machine.store.resources = outcome at done
  generalize action' machine.store.resources = outcome' at done
  cases done with
  | ok fresh related => exact .ok related (matches' fresh)
  | error error fresh => exact .same rfl (matches' fresh)

end Conforms

section Bodies

variable {context : Context} {run : Tree → Run Value}

def RunsAlike (lenient : Bool) (bodies : Bodies) (run : Tree → Run Value) : Prop :=
  ∀ body body', bodies.procedures body body' → ∀ machine machine' : Machine,
    machine.Matches bodies machine' →
      Conforms lenient bodies (Value.Like bodies) (run body machine) (run body' machine')

variable (runs : RunsAlike lenient bodies run) {params params' : List Param}
  {arguments arguments' : List Value}

include runs

theorem run_body_conforms (matched : machine.Matches bodies machine') {scope scope' : Environment}
    (scopes : scope.Like bodies scope') {body body' : Tree}
    (related : bodies.procedures body body') :
    Conforms lenient bodies (Value.Like bodies) (runBody run scope body machine)
      (runBody run scope' body' machine') := by
  have inside := runs body body' related ⟨scope, machine.store⟩ ⟨scope', machine'.store⟩
    ⟨⟨scopes, matched.like.store⟩, matched.clear⟩
  have back : ∀ after after' : Machine, after.Matches bodies after' →
      Machine.Matches bodies { machine with store := after.store }
        { machine' with store := after'.store } := fun after after' final =>
    ⟨⟨matched.like.env, final.like.store⟩, final.clear⟩
  rw [run_body_apply, run_body_apply]
  generalize run body ⟨scope, machine.store⟩ = outcome at inside
  generalize run body' ⟨scope', machine'.store⟩ = outcome' at inside
  cases inside with
  | ok value final => exact .ok .void (back _ _ final)
  | returned value final => exact .ok value (back _ _ final)
  | same other final =>
      rw [leave_body_error other, leave_body_error other]
      exact .same other (back _ _ final)
  | failed on ordinary ordinary' =>
      rw [leave_body_error (EvalError.ordinary_no_return ordinary),
        leave_body_error (EvalError.ordinary_no_return ordinary')]
      exact .failed on ordinary ordinary'
  | excused on => exact .excused on

theorem invoke_conforms (matched : machine.Matches bodies machine')
    (like : ParamsLike bodies params params') (given : ValuesLike bodies arguments arguments')
    {scope scope' : Environment} (scopes : scope.Like bodies scope') {body body' : Tree}
    (related : bodies.procedures body body') :
    Conforms lenient bodies (Value.Like bodies)
      (invoke context run params body arguments scope machine)
      (invoke context run params' body' arguments' scope' machine') := by
  unfold invoke
  have entered : Conforms lenient bodies (Environment.Like bodies)
      (Run.ofExcept (scope.enterCall context.maxDepth) machine)
      (Run.ofExcept (scope'.enterCall context.maxDepth) machine') := by
    unfold Environment.enterCall
    rw [← scopes.depth]
    split
    · exact .same rfl matched
    · exact .ok (scopes.at_depth _) matched
  apply entered.bind
  intro inner inner' between between' inners matched' _
  apply (Conforms.copying matched' (bind_arguments_like like given inners)).bind
  intro bound bound' last last' bounds final _
  exact run_body_conforms runs final bounds related

theorem call_procedure_conforms (matched : machine.Matches bodies machine')
    {procedure procedure' : Procedure} (like : procedure.Like bodies procedure')
    (given : ValuesLike bodies arguments arguments') :
    Conforms lenient bodies (Value.Like bodies)
      (callProcedure context run procedure arguments machine)
      (callProcedure context run procedure' arguments' machine') :=
  invoke_conforms runs matched like.params given matched.like.env.procedure_scope like.body

theorem call_value_conforms
    (inner : ∀ body body', bodies.closures body body' → bodies.procedures body body')
    (matched : machine.Matches bodies machine') (position : Position)
    (given : ValuesLike bodies arguments arguments') :
    Conforms lenient bodies (Value.Like bodies)
      (callValue context run position arguments machine)
      (callValue context run position arguments' machine') := by
  have last := given.last
  unfold callValue
  generalize arguments.getLast?.getD .void = callee at last
  generalize arguments'.getLast?.getD .void = callee' at last
  cases last with
  | @closure identity params params' body body' made like related =>
      have captured : (machine.store.environmentOf ⟨identity, params, body, made⟩).Like bodies
          (machine'.store.environmentOf ⟨identity, params', body', made⟩) :=
        matched.like.store.environment_of rfl
      have depth := matched.like.env.depth
      have called : Conforms lenient bodies (Value.Like bodies)
          ((Run.copying (Store.copying
              (machine.store.environmentOf ⟨identity, params, body, made⟩).copy) >>= fun scope =>
            invoke context run params body arguments.dropLast
              { scope with depth := machine.env.depth }) machine)
          ((Run.copying (Store.copying
              (machine'.store.environmentOf ⟨identity, params', body', made⟩).copy) >>= fun scope =>
            invoke context run params' body' arguments'.dropLast
              { scope with depth := machine'.env.depth }) machine') := by
        apply (Conforms.copying matched captured.copy).bind
        intro scope scope' between between' scopes matched' _
        rw [← depth]
        exact invoke_conforms runs matched' like given.drop_last (scopes.at_depth _)
          (inner _ _ related)
      exact called
  | _ => exact .same rfl matched

end Bodies

variable {context : Context}

theorem call_builtin_conforms (respects : context.registry.Respects bodies)
    (quiet : context.registry.NeverInterrupts) {name : String} {builtin : Builtin}
    (found : context.registry.find? name = some builtin)
    (matched : machine.Matches bodies machine') (position : Position)
    {arguments arguments' : List Value} (given : ValuesLike bodies arguments arguments') :
    Conforms lenient bodies (Value.Like bodies)
      (callBuiltin context builtin name position arguments machine)
      (callBuiltin context builtin name position arguments' machine') := by
  cases accepted : builtin.arity.accepts arguments.length with
  | false =>
      have accepted' := accepted
      rw [given.length] at accepted'
      rw [call_builtin_refused accepted, call_builtin_refused accepted', given.length]
      exact .same rfl matched
  | true =>
      have accepted' := accepted
      rw [given.length] at accepted'
      rw [call_builtin_accepted accepted, call_builtin_accepted accepted']
      have concurs := respects name builtin found position machine.env machine'.env arguments
        arguments' machine.store machine'.store matched.like.env given matched.like.store
      have clear := quiet name builtin found
        ⟨position, some machine.env, context.registry.catalogue⟩ arguments machine.store
        matched.clear
      generalize builtin.run ⟨position, some machine.env, context.registry.catalogue⟩ arguments
        machine.store = outcome at concurs clear
      generalize builtin.run ⟨position, some machine'.env, context.registry.catalogue⟩ arguments'
        machine'.store = outcome' at concurs
      cases concurs with
      | ok value store => exact .ok value ⟨⟨matched.like.env, store⟩, clear⟩
      | error fault store => exact .same rfl ⟨⟨matched.like.env, store⟩, clear⟩

theorem capture_conforms (matched : machine.Matches bodies machine') {params params' : List Param}
    (like : ParamsLike bodies params params') {body body' : Tree}
    (related : bodies.closures body body') (position : Position) :
    Conforms lenient bodies (Value.Like bodies) (captureClosure params body position machine)
      (captureClosure params' body' position machine') := by
  have copied := matched.like.env.copy machine.store.resources
  have size : machine.store.captured.size = machine'.store.captured.size := by
    have length := matched.like.store.captured.length_eq
    simpa using length
  rw [capture_closure_apply, capture_closure_apply, ← size]
  rw [← matched.like.store.resources]
  generalize machine.env.copy machine.store.resources = outcome at copied
  generalize machine'.env.copy machine.store.resources = outcome' at copied
  cases copied with
  | ok fresh env =>
      refine .ok (.closure _ position like related) ⟨⟨matched.like.env, ?_⟩, matched.clear⟩
      refine { matched.like.store with captured := ?_, resources := rfl }
      rw [Array.toList_push, Array.toList_push]
      exact List.rel_append matched.like.store.captured (.cons env .nil)
  | error error fresh =>
      exact .same rfl ⟨⟨matched.like.env, { matched.like.store with resources := rfl }⟩,
        matched.clear⟩

end Actions

end TreeScript
