import TreeScript.Proofs.Standard
/-!
# Expressions without side effects

The optimizer moves and repeats every expression that it takes to be free of side effects. It only
looks at the names that are called in the expression: each has to be that of a pure function or of a
special form that is transparent.

Main statement: such an expression has one outcome for the variables that it reads. Whatever else
is different when it is evaluated, and however bodies are run, it comes to that outcome, it changes
nothing, and it does not return from the body around it. This needs that no name in it stands for
something other than the function of that name, since special forms and procedures come first when
a call is evaluated.
-/

namespace TreeScript

set_option autoImplicit false

/-- An expression that is accepted has one outcome for the variables it reads, so it comes to the
same outcome when it is evaluated again. It calls no procedure and no closure: the outcome does not
depend on what is defined or captured, on the depth or on what runs bodies. It is a value or an error
of the expression itself, never a return, and the machine stays as it is. -/
theorem accepted_expression_has_one_outcome {registry : Registry}
    (computes : registry.ComputesPurely) {tree : Tree}
    (accepted : tree.isSideEffectFree registry = true)
    (means : tree.functionNames.all (Tree.admitsName SpecialForm.isTransparent) = true)
    (env : Environment) :
    tree.Quiet registry ∧
    ∃ outcome : Except EvalError Value,
      (∀ error, outcome = .error error → error.isOrdinary = true) ∧
      ∀ (context : Context) (machine : Machine), context.registry = registry →
        machine.store.interrupted = false →
        (∀ name ∈ tree.variableNames, machine.env.get? name = env.get? name) →
          (∀ run, evaluate context run tree machine = Run.ofExcept outcome machine) ∧
          tree.eval context machine = Run.ofExcept outcome machine := by
  have quiet := Tree.calls_only_of_side_effect_free accepted means
  refine ⟨quiet, tree.denote registry env.read, ?_, ?_⟩
  · intro error failed
    exact Tree.denote_error_ordinary (reading_ordinary env) tree failed
  · rintro context machine rfl clear alike
    have read : tree.denote context.registry machine.env.read =
        tree.denote context.registry env.read := by
      apply Tree.denote_congr
      intro name mentioned position
      unfold Environment.read
      rw [alike name mentioned]
    have evaluated : ∀ run, evaluate context run tree machine =
        Run.ofExcept (tree.denote context.registry env.read) machine := by
      intro run
      rw [← read]
      exact evaluate_quiet computes clear quiet
    exact ⟨evaluated, evaluated _⟩

section Shadowing

/-- Two pure functions. Scripts cannot call the second: a call by its name is a `return`. -/
def shadowedRegistry : Registry :=
  .ofList [Prelude.ofArguments "add" (.atLeast 2) true "number \x7bvalues...\x7d Adds." Prelude.add,
    Prelude.ofArguments SpecialForm.returning.name (.between 0 1) true
      "mixed \x7bvalue\x7d Passes it on." Prelude.passOn]

theorem shadowed_computes_purely : shadowedRegistry.ComputesPurely := by
  intro name builtin values found _
  obtain ⟨member, -⟩ := Registry.find_of_list found
  simp only [List.mem_cons, List.not_mem_nil, or_false] at member
  obtain rfl | rfl := member
  · exact ⟨Prelude.add values, fun _ _ _ => rfl⟩
  · exact ⟨Prelude.passOn values, fun _ _ _ => rfl⟩

theorem accepted_sum_has_one_outcome :
    let sum : Tree := .call "add" [.node (.variable "@x") [] .unknown,
      .literal (.int 2) .unknown] .unknown
    sum.isSideEffectFree shadowedRegistry = true ∧
    ∀ machine : Machine, machine.store.interrupted = false →
      machine.env.get? "@x" = some (.int 1) →
        sum.eval { registry := shadowedRegistry } machine = .ok (.int 3) machine := by
  intro sum
  have accepted : sum.isSideEffectFree shadowedRegistry = true := by decide +kernel
  refine ⟨accepted, fun machine clear bound => ?_⟩
  obtain ⟨-, outcome, -, evaluated⟩ := accepted_expression_has_one_outcome
    shadowed_computes_purely accepted (by decide +kernel) (Environment.set {} "@x" (.int 1))
  have once := (evaluated { registry := shadowedRegistry }
    ⟨Environment.set {} "@x" (.int 1), {}⟩ rfl rfl fun _ _ => rfl).2
  have same : outcome = .ok (.int 3) := by
    cases outcome with
    | ok value =>
        cases once
        rfl
    | error error => cases once
  subst same
  apply (evaluated _ machine rfl clear ?_).2
  intro name mentioned
  have named : name = "@x" := by
    have only : sum.variableNames = ["@x"] := by decide +kernel
    rw [only] at mentioned
    exact List.mem_singleton.mp mentioned
  rw [named, bound]
  rfl

/-- The name of the function is accepted, but the call returns from the body around it. -/
theorem shadowed_function_returns :
    let node : Tree := .call SpecialForm.returning.name [.literal (.int 1) .unknown] .unknown
    shadowedRegistry.ComputesPurely ∧ node.isSideEffectFree shadowedRegistry = true ∧
      node.Everywhere Tree.BareLeaf ∧
      node.eval { registry := shadowedRegistry } {} = .error (.returned (.int 1)) {} :=
  ⟨shadowed_computes_purely, by decide +kernel,
    .node nofun fun child member => by
      obtain rfl := List.mem_singleton.mp member
      exact .node (fun _ => rfl) nofun,
    rfl⟩

end Shadowing

end TreeScript
