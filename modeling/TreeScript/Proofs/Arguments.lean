import TreeScript.Proofs.Conformance
import TreeScript.Proofs.Copies
import TreeScript.Proofs.Inlining
/-!
# What a call binds

The body of a procedure and that of a closure start in scopes that are made differently, but their
parameters are bound the same way. Each parameter gets the argument in its place, or else a copy
of its default; of two parameters with one name the later is in force, and the array of all
arguments hides a parameter of its name. If a default that is needed refuses to be copied, then no
body is run at all.
-/

namespace TreeScript

set_option autoImplicit false

namespace Param

/-- What a parameter may be bound to: the argument in its place if there is one, else a copy of
its default, with the identities from the given one on. -/
def Gets (param : Param) (fresh : Nat) (value : Value) : Option Value → Prop
  | some argument => value = argument
  | none => param.default.FreshCopy fresh value

def refusal? (param : Param) : Option Resource := param.default.resources.find? Resource.refuses

def fill (param : Param) : Option Value → Copying Value
  | some argument => return argument
  | none => param.default.copy

end Param

section Loop

variable {params : List Param} {arguments : List Value} {scope inner : Environment} {fresh : Nat}

/-- The resources in the defaults that no argument takes the place of. -/
def omittedResources (params : List Param) (arguments : List Value) : List Resource :=
  (params.drop arguments.length).flatMap fun param => param.default.resources

theorem omitted_resources_cons (param : Param) (params : List Param) (arguments : List Value) :
    omittedResources (param :: params) arguments =
      omittedResources [param] arguments ++ omittedResources params arguments.tail := by
  cases arguments <;> simp [omittedResources]

theorem fill_ends (param : Param) (arguments : List Value) (fresh : Nat) :
    CopyEnds (omittedResources [param] arguments) fresh
      (fun value => param.Gets fresh value arguments.head?) (param.fill arguments.head? fresh) := by
  cases arguments with
  | nil =>
      have whole := param.default.copy_ends fresh
      rwa [← List.append_nil param.default.resources] at whole
  | cons argument arguments =>
      have nothing : omittedResources [param] (argument :: arguments) = [] := by
        simp [omittedResources]
      rw [nothing]
      exact .pure (rfl : param.Gets fresh argument (some argument))

namespace Environment

structure Binds (params : List Param) (arguments : List Value) (fresh : Nat)
    (scope inner : Environment) : Prop where
  named : ∀ before param after, params = before ++ param :: after →
    param.name ∉ after.map Param.name →
    ∃ value, inner.get? param.name = some value ∧
      param.Gets (fresh + (omittedResources before arguments).length) value
        arguments[before.length]?
  unnamed : ∀ name, name ∉ params.map Param.name → inner.get? name = scope.get? name
  others : inner = { scope with vars := inner.vars }

/-- One more parameter in front is bound first, so that those after it may hide it. -/
theorem Binds.cons {param : Param} {value : Value}
    (gets : param.Gets fresh value arguments.head?)
    (rest : Binds params arguments.tail
      (fresh + (omittedResources [param] arguments).length) (scope.set param.name value) inner) :
    Binds (param :: params) arguments fresh scope inner where
  named := by
    intro before last after split hidden
    cases before with
    | nil =>
        cases split
        have kept := rest.unnamed _ hidden
        rw [get_set, if_pos rfl] at kept
        rw [List.head?_eq_getElem?] at gets
        exact ⟨value, kept, by simpa [omittedResources] using gets⟩
    | cons first before =>
        cases split
        have found := rest.named before last after rfl hidden
        rwa [List.getElem?_tail, Nat.add_assoc, ← List.length_append,
          ← omitted_resources_cons] at found
  unnamed := by
    intro name outside
    rw [List.map_cons, List.mem_cons, not_or] at outside
    rw [rest.unnamed name outside.2, get_set, if_neg outside.1]
  others := rest.others

theorem bind_params_cons (param : Param) (params : List Param) (arguments : List Value)
    (scope : Environment) :
    bindParams (param :: params) arguments scope = param.fill arguments.head? >>= fun value =>
      bindParams params arguments.tail (scope.set param.name value) := by
  cases arguments with
  | nil => rfl
  | cons argument arguments => rfl

theorem bind_params_ends (params : List Param) (arguments : List Value) (scope : Environment)
    (fresh : Nat) :
    CopyEnds (omittedResources params arguments) fresh (Binds params arguments fresh scope)
      (bindParams params arguments scope fresh) := by
  induction params generalizing arguments scope fresh with
  | nil =>
      have nothing : omittedResources [] arguments = [] := by simp [omittedResources]
      have no_parameter : Binds [] arguments fresh scope scope :=
        ⟨fun before _ _ split => by simp at split, fun _ _ => rfl, rfl⟩
      rw [nothing]
      exact .pure no_parameter
  | cons param params induction =>
      -- The others are bound in the scope that has the first, with the identities left after it.
      rw [bind_params_cons, omitted_resources_cons]
      exact (fill_ends param arguments fresh).bind fun value gets =>
        (induction arguments.tail _ _).imp fun inner rest => rest.cons gets

structure Enters (params : List Param) (arguments : List Value) (fresh : Nat)
    (scope inner : Environment) : Prop where
  together : inner.get? argumentsVariable = some (.array arguments)
  named : ∀ before param after, params = before ++ param :: after →
    param.name ∉ after.map Param.name → param.name ≠ argumentsVariable →
    ∃ value, inner.get? param.name = some value ∧
      param.Gets (fresh + (omittedResources before arguments).length) value
        arguments[before.length]?
  unnamed : ∀ name, name ∉ params.map Param.name → name ≠ argumentsVariable →
    inner.get? name = scope.get? name
  others : inner = { scope with vars := inner.vars, depth := scope.depth + 1 }

theorem bind_arguments_ends (params : List Param) (arguments : List Value) (scope : Environment)
    (fresh : Nat) :
    CopyEnds (omittedResources params arguments) fresh (Enters params arguments fresh scope)
      (bindArguments params arguments { scope with depth := scope.depth + 1 } fresh) := by
  refine (bind_params_ends params arguments _ fresh).map fun inner binds => ?_
  have get (name : String) := get_set inner argumentsVariable name (.array arguments)
  constructor
  case together => rw [get, if_pos rfl]
  case named =>
    intro before param after split hidden plain
    rw [get, if_neg plain]
    exact binds.named before param after split hidden
  case unnamed =>
    intro name outside plain
    rw [get, if_neg plain]
    exact binds.unnamed name outside
  case others => rw [binds.others]; rfl

end Environment

/-- The first resource that refuses is in the first default that cannot be copied. -/
theorem find_omitted (params : List Param) (arguments : List Value) :
    (omittedResources params arguments).find? Resource.refuses =
      (params.drop arguments.length).findSome? Param.refusal? :=
  List.find?_flatMap

end Loop

def Machine.numbered (machine : Machine) (fresh : Nat) : Machine :=
  { machine with store := { machine.store with resources := fresh } }

/-- How a call begins once its scope has been set up, whatever it is that runs the body. It fails
at the limit of calls, or with the refusal of the first default that is needed and cannot be copied;
in both cases no body is run. Else the body runs, and it finds its parameters bound. -/
inductive Begins (limit : Nat) (params : List Param) (body : Tree) (arguments : List Value)
    (scope : Environment) (machine : Machine)
    (call : (Tree → Run Value) → EStateM.Result EvalError Machine Value) : Prop where
  | overflow (deep : limit ≤ scope.depth)
      (fails : ∀ run, call run = .error (.stackOverflow (scope.depth + 1) limit) machine) :
      Begins limit params body arguments scope machine call
  | refused {handle : Resource} (fresh : Nat) (below : scope.depth < limit)
      (first : (params.drop arguments.length).findSome? Param.refusal? = some handle)
      (fails : ∀ run, call run = .error (.copy ⟨handle.typeName⟩) (machine.numbered fresh)) :
      Begins limit params body arguments scope machine call
  | bound {inner : Environment} (below : scope.depth < limit)
      (granted : ∀ param ∈ params.drop arguments.length, param.refusal? = none)
      (enters : Environment.Enters params arguments machine.store.resources scope inner)
      (runs : ∀ run, call run = runBody run inner body (machine.numbered
        (machine.store.resources + (omittedResources params arguments).length))) :
      Begins limit params body arguments scope machine call

theorem invoke_begins (context : Context) (params : List Param) (body : Tree)
    (arguments : List Value) (scope : Environment) (machine : Machine) :
    Begins context.maxDepth params body arguments scope machine
      fun run => invoke context run params body arguments scope machine := by
  rcases Nat.lt_or_ge scope.depth context.maxDepth with below | deep
  case inr =>
    refine .overflow deep fun run => ?_
    simp only [invoke, Environment.enterCall, if_pos deep, Run.ofExcept, bind_apply]
  case inl =>
    have entered : scope.enterCall context.maxDepth =
        .ok { scope with depth := scope.depth + 1 } := if_neg (Nat.not_le_of_lt below)
    have ends := Environment.bind_arguments_ends params arguments scope machine.store.resources
    generalize made : Environment.bindArguments params arguments
      { scope with depth := scope.depth + 1 } machine.store.resources = outcome at ends
    cases ends with
    | error after found =>
        rw [find_omitted] at found
        refine .refused after below found fun run => ?_
        simp only [invoke, entered, Run.ofExcept, bind_apply, copying_apply, made]
        rfl
    | ok granted enters =>
        refine .bound below ?_ enters fun run => ?_
        · rw [← List.findSome?_eq_none_iff, ← find_omitted]
          simpa using granted
        · simp only [invoke, entered, Run.ofExcept, bind_apply, copying_apply, made]
          rfl

theorem call_closure_apply (context : Context) (run : Tree → Run Value) (closure : Closure)
    (arguments : List Value) (depth : Nat) (machine : Machine) :
    callClosure context run closure arguments depth machine =
      match (machine.store.environmentOf closure).copy machine.store.resources with
      | .ok scope fresh =>
          invoke context run closure.params closure.body arguments { scope with depth }
            (machine.numbered fresh)
      | .error refusal fresh => .error (.copy refusal) (machine.numbered fresh) := by
  change (Run.copying (Store.copying (machine.store.environmentOf closure).copy) >>= fun scope =>
    invoke context run closure.params closure.body arguments { scope with depth }) machine = _
  rw [bind_apply, copying_apply]
  cases (machine.store.environmentOf closure).copy machine.store.resources <;> rfl

theorem closure_begins (context : Context) (closure : Closure) (arguments : List Value)
    (depth : Nat) (machine : Machine) :
    match (machine.store.environmentOf closure).copy machine.store.resources with
    | .error refusal fresh => ∀ run,
        callClosure context run closure arguments depth machine =
          .error (.copy refusal) (machine.numbered fresh)
    | .ok scope fresh =>
        (∀ name, Option.Rel Value.CopiedTo
          ((machine.store.environmentOf closure).get? name) (scope.get? name)) ∧
        Begins context.maxDepth closure.params closure.body arguments { scope with depth }
          (machine.numbered fresh)
          fun run => callClosure context run closure arguments depth machine := by
  simp only [call_closure_apply]
  have ends := (machine.store.environmentOf closure).copy_ends machine.store.resources
  generalize (machine.store.environmentOf closure).copy machine.store.resources = outcome at ends
  cases ends with
  | error after found => exact fun run => rfl
  | ok granted fits =>
      exact ⟨fun name => fits.vars.find name,
        invoke_begins context closure.params closure.body arguments _ _⟩

theorem Environment.copy_of_no_vars {env : Environment} (bare : env.vars = {}) (fresh : Nat) :
    env.copy fresh = .ok env fresh := by
  rcases env with ⟨vars, procedures, label, command, script, depth⟩
  cases bare
  rfl

theorem closure_invoked_as_procedure {context : Context} {arguments : List Value}
    {machine : Machine} {procedure : Procedure} {closure : Closure} {depth : Nat}
    (params : closure.params = procedure.params) (body : closure.body = procedure.body)
    (captured : machine.store.environmentOf closure =
      { machine.env.procedureScope with depth }) (run : Tree → Run Value) :
    callClosure context run closure arguments machine.env.depth machine =
      callProcedure context run procedure arguments machine := by
  rw [call_closure_apply, captured, Environment.copy_of_no_vars rfl, params, body]
  rfl

/-- Procedures and closures bind arguments alike. Apart from their parameters, the body of a
procedure finds no variables and that of a closure finds copies of those that were captured. A
closure that captured the procedures and the names of its caller but no variables cannot be told
from a procedure. -/
theorem arguments_bound_alike (context : Context) (arguments : List Value) (machine : Machine) :
    (∀ procedure : Procedure,
      (∀ name, machine.env.procedureScope.get? name = none) ∧
      Begins context.maxDepth procedure.params procedure.body arguments
        machine.env.procedureScope machine
        fun run => callProcedure context run procedure arguments machine) ∧
    (∀ (closure : Closure) (depth : Nat),
      match (machine.store.environmentOf closure).copy machine.store.resources with
      | .error refusal fresh => ∀ run,
          callClosure context run closure arguments depth machine =
            .error (.copy refusal) (machine.numbered fresh)
      | .ok scope fresh =>
          (∀ name, Option.Rel Value.CopiedTo
            ((machine.store.environmentOf closure).get? name) (scope.get? name)) ∧
          Begins context.maxDepth closure.params closure.body arguments { scope with depth }
            (machine.numbered fresh)
            fun run => callClosure context run closure arguments depth machine) ∧
    (∀ (procedure : Procedure) (closure : Closure) (depth : Nat),
      closure.params = procedure.params → closure.body = procedure.body →
      machine.store.environmentOf closure = { machine.env.procedureScope with depth } →
      ∀ run, callClosure context run closure arguments machine.env.depth machine =
        callProcedure context run procedure arguments machine) :=
  ⟨fun procedure => ⟨fun _ => rfl,
      invoke_begins context procedure.params procedure.body arguments _ machine⟩,
    fun closure depth => closure_begins context closure arguments depth machine,
    fun _ _ _ => closure_invoked_as_procedure⟩

/-- Two parameters share a name, and the default of the later holds a file. The caller is two
calls deep and the closure was made seven calls deep. -/
theorem arguments_bound_alike_of_file :
    let context : Context := { registry := {} }
    let params : List Param :=
      [⟨"@x", .null⟩, ⟨"@x", .array [.resource ⟨0, "file", .endless⟩]⟩]
    let body : Tree :=
      .call SpecialForm.returning.name [.node (.variable "@x") [] .unknown] .unknown
    let machine : Machine :=
      ⟨{ vars := ⟨[("@n", .int 1)]⟩, label := some "main", depth := 2 },
        { captured := #[{ label := some "main", depth := 7 }], resources := 1 }⟩
    let run := evaluate context (bodyRunner context 5)
    callClosure context run ⟨0, params, body, .unknown⟩ [.int 3] 2 machine =
        callProcedure context run ⟨"_p", params, body, .unknown⟩ [.int 3] machine ∧
      callProcedure context run ⟨"_p", params, body, .unknown⟩ [.int 3] machine =
        .ok (.array [.resource ⟨1, "file", .endless⟩]) (machine.numbered 2) := by
  intro context params body machine run
  have alike := (arguments_bound_alike context [.int 3] machine).2.2
    ⟨"_p", params, body, .unknown⟩ ⟨0, params, body, .unknown⟩ 7 rfl rfl rfl run
  exact ⟨alike, rfl⟩

end TreeScript
