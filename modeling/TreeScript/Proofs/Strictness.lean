import TreeScript.Proofs.Standard
/-!
# Values and failures of inlined calls

A call that succeeds and the expression that replaces it have the same value. A call evaluates all
of its arguments, and the expression only those that it reads. The replacement is made when every
argument that is not constant is read on each path, so an argument that fails makes it fail too.
This holds as long as the parameter of the argument is the last one of its name. Of two parameters
with one name the later is bound, and nothing reads the argument of the earlier.
-/

namespace TreeScript

set_option autoImplicit false

section Values

variable {context : Context} {machine after : Machine} {procedure : Procedure}
  {template : Template} {nameNode body : Tree} {params arguments : List Tree} {name : String}

/-- A call that succeeds and the expression that replaces it have the same value, and neither
changes the machine. The procedure in force has to be the one that was analyzed. Its body must not
read the array of all arguments under the name of a parameter, and the defaults that the call uses
must be copied as they are. -/
theorem inlined_call_value (apart : context.registry.KeepsNamesApart)
    (faithful : context.registry.ComputesPurely) (plainName : SpecialForm.ofName? name = none)
    (named : Tree.isProcedureName name = true)
    (analyzed : (Definition.analyze context.registry name params body).1 = .inlinable template)
    {definedAt : Position} {settled : Bool} {noted : Facts}
    (created : procedure.CreatedBy context ⟨.call SpecialForm.procedure.name, definedAt, settled,
      noted, nameNode :: (params ++ [body])⟩)
    (unhidden : argumentsVariable ∉ template.body.variableNames)
    (plain : ∀ slot ∈ template.slots.drop arguments.length, slot.HoldsNoResource)
    {position : Position} {replacement : Tree}
    (instantiated : template.instantiate? context.registry arguments position = some replacement)
    (bound : machine.env.procedure? name = some procedure)
    (clear : machine.store.interrupted = false) {optimized : Bool} {facts : Facts} {value : Value}
    (done : (⟨.call name, position, optimized, facts, arguments⟩ : Tree).eval context machine =
      .ok value after) :
    after = machine ∧ replacement.eval context machine = .ok value machine := by
  rcases analyze_inlinable analyzed with ⟨expression, returned, described⟩
  rcases created.parts with ⟨sameBody, run, before, between, made⟩
  have aligned := evaluate_params_match body described.slots made
  have bodyFound : procedure.body = body := by
    rw [sameBody]
    simp [bodyOf]
  rw [← bodyFound] at returned
  have quiet := Tree.quiet_of_side_effect_free apart expression described.quiet
  have unread : argumentsVariable ∉ expression.variableNames :=
    fun member => unhidden ((described.reads _).mpr member)
  rcases replacement_denotes machine.env apart described instantiated with
    ⟨bindings, bindingsFound, quietReplacement, sameValue⟩
  have quietArguments : ∀ argument ∈ arguments,
      Denotes context (bodyRunner context (context.maxDepth - machine.env.depth)) machine
        argument := by
    intro argument member
    apply evaluate_quiet faithful clear
    exact Tree.quiet_of_side_effect_free apart argument
      ((accepts_parts (instantiate_accepts instantiated)).2 argument member)
  rw [eval_apply, evaluate_call _ _ _ _ _ _ plainName named,
    unless_interrupted_clear _ clear] at done
  simp only [evaluateCall, bound] at done
  rw [bind_apply, evaluate_all_denotes quietArguments] at done
  cases denoted : Tree.denoteAll context.registry machine.env.read arguments with
  | error error =>
      rw [denoted] at done
      cases done
  | ok values =>
      rw [denoted] at done
      have outcome := call_returning_procedure faithful clear returned quiet described.closed
        unread aligned (denote_all_values denoted) plain bindingsFound
        (context.maxDepth - machine.env.depth)
      simp only [Run.ofExcept] at done
      rw [done] at outcome
      rcases outcome with ⟨depth, overflow⟩ | result
      · cases overflow
      · cases final : expression.denote context.registry
            (Tree.substituted context.registry machine.env.read bindings) with
        | error error =>
            rw [final] at result
            cases result
        | ok value' =>
            rw [final] at result
            cases result
            refine ⟨rfl, ?_⟩
            rw [eval_apply]
            have denotes : Denotes context
                (bodyRunner context (context.maxDepth - machine.env.depth)) machine replacement :=
              evaluate_quiet faithful clear quietReplacement
            unfold Denotes at denotes
            rw [denotes, (sameValue value).mpr final]
            rfl

def doubling : Procedure where
  name := "_double"
  params := [⟨"@x", .null⟩]
  body := .call SpecialForm.returning.name
    [.call "add" [.node (.variable "@x") [] .unknown, .node (.variable "@x") [] .unknown] .unknown]
    .unknown
  position := .unknown

def doublingDefinition : Tree :=
  .call SpecialForm.procedure.name
    ([.literal (.string "_double") .unknown] ++ [.node (.variable "@x") [] .unknown] ++
      [doubling.body]) .unknown

def doublingTemplate : Template :=
  ⟨[⟨"@x", none⟩], ["@x", "@x"],
    .call "add" [.node (.variable "@x") [] .unknown, .node (.variable "@x") [] .unknown] .unknown⟩

theorem doubling_analyzed :
    (Definition.analyze Prelude.registry "_double" [.node (.variable "@x") [] .unknown]
      doubling.body).1 = .inlinable doublingTemplate := rfl

theorem inlined_call_value_of_double :
    let machine : Machine :=
      { env := { vars := ⟨[("@n", .int 21)]⟩, procedures := ⟨[("_double", doubling)]⟩ } }
    let number : Tree := .node (.variable "@n") [] .unknown
    (Tree.call "_double" [number] .unknown).eval .standard machine = .ok (.int 42) machine ∧
      (Tree.call "add" [number, number] .unknown).eval .standard machine =
        .ok (.int 42) machine := by
  intro machine number
  have reliable := Prelude.builtins_reliable
  have apart : Context.standard.registry.KeepsNamesApart := Registry.of_list_apart reliable
  have computes : Context.standard.registry.ComputesPurely :=
    (Registry.of_list_faithful reliable).computes_purely
  have created : doubling.CreatedBy .standard doublingDefinition :=
    ⟨rfl, fun _ => pure .void, {}, .void, { env := { procedures := ⟨[("_double", doubling)]⟩ } },
      rfl, rfl⟩
  have instantiated : doublingTemplate.instantiate? Prelude.registry [number] .unknown =
      some (.call "add" [number, number] .unknown) := rfl
  have unused : ∀ slot ∈ doublingTemplate.slots.drop [number].length, slot.HoldsNoResource :=
    List.forall_mem_nil _
  have done : (Tree.call "_double" [number] .unknown).eval .standard machine =
      .ok (.int 42) machine := rfl
  exact ⟨done, (inlined_call_value apart computes rfl rfl doubling_analyzed created (by decide) unused
    instantiated rfl rfl done).2⟩

def passing (parameter : String) : Procedure where
  name := "_p"
  params := [⟨parameter, .null⟩]
  body := .call SpecialForm.returning.name [.node (.variable parameter) [] .unknown] .unknown
  position := .unknown

def passingDefinition (parameter : String) : Tree :=
  .call SpecialForm.procedure.name
    ([.literal (.string "_p") .unknown] ++ [.node (.variable parameter) [] .unknown] ++
      [(passing parameter).body]) .unknown

def passingMachine (parameter : String) : Machine where
  env := { procedures := ⟨[("_p", passing parameter)]⟩ }

theorem passing_created (parameter : String) (registry : Registry) :
    (passing parameter).CreatedBy { registry } (passingDefinition parameter) :=
  ⟨rfl, fun _ => pure .void, {}, .void, passingMachine parameter, rfl, rfl⟩

/-- A parameter named like the array of all arguments is hidden by it in the call, but not in the
expression that replaces the call. -/
theorem hidden_parameter_changes_value :
    (Definition.analyze {} "_p" [.node (.variable argumentsVariable) [] .unknown]
        (passing argumentsVariable).body).1 =
      .inlinable ⟨[⟨argumentsVariable, none⟩], [argumentsVariable],
        .node (.variable argumentsVariable) [] .unknown⟩ ∧
    Template.instantiate? {} ⟨[⟨argumentsVariable, none⟩], [argumentsVariable],
        .node (.variable argumentsVariable) [] .unknown⟩ [.literal (.int 5) .unknown] .unknown =
      some (.literal (.int 5) .unknown) ∧
    (passing argumentsVariable).CreatedBy { registry := {} }
      (passingDefinition argumentsVariable) ∧
    (Tree.call "_p" [.literal (.int 5) .unknown] .unknown).eval { registry := {} }
        (passingMachine argumentsVariable) =
      .ok (.array [.int 5]) (passingMachine argumentsVariable) ∧
    (Tree.literal (.int 5) .unknown).eval { registry := {} } (passingMachine argumentsVariable) =
      .ok (.int 5) (passingMachine argumentsVariable) :=
  ⟨rfl, rfl, passing_created argumentsVariable {}, rfl, rfl⟩

end Values

section Arguments

variable {context : Context} {machine after : Machine} {template : Template}
  {name : String} {params arguments : List Tree} {body replacement argument : Tree}
  {position : Position}

/-- Where an argument fails, so does the expression that replaces the call, if no later parameter
has the name of the one that the argument is for. The machine need not be uninterrupted. -/
theorem failing_argument_kept (apart : context.registry.KeepsNamesApart)
    (faithful : context.registry.ComputesPurely)
    (analyzed : (Definition.analyze context.registry name params body).1 = .inlinable template)
    (bare : body.Everywhere Tree.BareLeaf)
    (instantiated : template.instantiate? context.registry arguments position = some replacement)
    {index : Nat} (given : arguments[index]? = some argument)
    (last : ∀ slot, template.slots[index]? = some slot →
      slot.name ∉ (template.slots.drop (index + 1)).map Slot.name)
    {error : EvalError} (failed : argument.eval context machine = .error error after) :
    ∃ error after, replacement.eval context machine = .error error after := by
  rcases analyze_inlinable analyzed with ⟨expression, returned, described⟩
  have quiet := Tree.quiet_of_side_effect_free apart expression described.quiet
  have bareExpression : expression.Everywhere Tree.BareLeaf := by
    apply bare.inside
    rw [(Tree.returned_eq_some returned).2]
    exact List.mem_singleton_self expression
  rcases replacement_denotes machine.env apart described instantiated with
    ⟨bindings, bound, quietReplacement, sameValue⟩
  have accepted := instantiate_accepts instantiated
  rw [eval_apply] at failed ⊢
  cases flag : machine.store.interrupted with
  | true =>
      rw [← evaluate_checked, unless_interrupted_set _ flag]
      exact ⟨_, _, rfl⟩
  | false =>
      have quietArgument := Tree.quiet_of_side_effect_free apart argument
        ((accepts_parts accepted).2 argument (List.mem_of_getElem? given))
      have denotesArgument : Denotes context
          (bodyRunner context (context.maxDepth - machine.env.depth)) machine argument :=
        evaluate_quiet faithful flag quietArgument
      have denotesReplacement : Denotes context
          (bodyRunner context (context.maxDepth - machine.env.depth)) machine replacement :=
        evaluate_quiet faithful flag quietReplacement
      unfold Denotes at denotesArgument denotesReplacement
      rw [denotesArgument] at failed
      rw [denotesReplacement]
      have cause : argument.denote context.registry machine.env.read = .error error := by
        cases outcome : argument.denote context.registry machine.env.read <;>
          rw [outcome] at failed <;> cases failed
        rfl
      have within : index < template.slots.length :=
        Nat.lt_of_lt_of_le (List.getElem?_eq_some_iff.mp given).1 (accepts_parts accepted).1
      have placed := List.getElem?_eq_getElem within
      rcases unhidden_argument_fails described quiet bareExpression accepted bound given placed
        (last _ placed) cause with ⟨other, missed⟩
      cases outcome : replacement.denote context.registry machine.env.read with
      | error found => exact ⟨found, machine, rfl⟩
      | ok value =>
          rw [(sameValue value).mp outcome] at missed
          cases missed

theorem failing_argument_kept_of_missing :
    let missing : Tree := .node (.variable "@missing") [] .unknown
    ∃ error after, (Tree.call "add" [missing, missing] .unknown).eval .standard {} =
      .error error after := by
  intro missing
  have reliable := Prelude.builtins_reliable
  have apart : Context.standard.registry.KeepsNamesApart := Registry.of_list_apart reliable
  have computes : Context.standard.registry.ComputesPurely :=
    (Registry.of_list_faithful reliable).computes_purely
  have bare : doubling.body.Everywhere Tree.BareLeaf := by decide
  have instantiated : doublingTemplate.instantiate? Prelude.registry [missing] .unknown =
      some (.call "add" [missing, missing] .unknown) := rfl
  have given : [missing][0]? = some missing := rfl
  have last : ∀ slot, doublingTemplate.slots[0]? = some slot →
      slot.name ∉ (doublingTemplate.slots.drop 1).map Slot.name :=
    fun _ _ => List.not_mem_nil
  have failed : missing.eval .standard {} =
      .error (.undefinedVariable "@missing" .unknown) {} := rfl
  exact failing_argument_kept apart computes doubling_analyzed bare instantiated given last failed

/-- Both arguments pass for arguments of the later of two parameters with one name, which the body
reads. Only the second is bound to it, and the expression that replaces the call is that constant,
although evaluating the first argument fails. -/
theorem hidden_argument_loses_failure :
    (Definition.analyze {} "_p"
        [.node (.variable "@a") [] .unknown, .node (.variable "@a") [] .unknown]
        (passing "@a").body).1 =
      .inlinable ⟨[⟨"@a", none⟩, ⟨"@a", none⟩], ["@a"], .node (.variable "@a") [] .unknown⟩ ∧
    Template.instantiate? {}
        ⟨[⟨"@a", none⟩, ⟨"@a", none⟩], ["@a"], .node (.variable "@a") [] .unknown⟩
        [.node (.variable "@missing") [] .unknown, .literal (.int 5) .unknown] .unknown =
      some (.literal (.int 5) .unknown) ∧
    (Tree.node (.variable "@missing") [] .unknown).eval { registry := {} } {} =
      .error (.undefinedVariable "@missing" .unknown) {} ∧
    (Tree.literal (.int 5) .unknown).eval { registry := {} } {} = .ok (.int 5) {} :=
  ⟨rfl, rfl, rfl, rfl⟩

end Arguments

end TreeScript
