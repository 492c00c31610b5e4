import TreeScript.Proofs.Knowledge
import TreeScript.Proofs.Conformance
/-!
# Rewritten trees conform

A tree and a rewriting of it conform when they are evaluated on machines that are alike, while the
knowledge of the rewriting is in force on the first of the machines. With inlining the comparison is
lenient. The proof goes along the rewriting and, around that, along the number of calls left,
because the bodies that stand for each other are rewritings as well.
-/

namespace TreeScript

set_option autoImplicit false

def Rules.bodies (rules : Rules) (registry : Registry) : Bodies where
  closures :=
    match rules.closures with
    | true => fun body body' => Rewrites registry rules .node .nothing [body] [body']
    | false => Eq
  procedures body body' := Rewrites registry rules .node .nothing [body] [body']

theorem Rules.bodies_reflexive (rules : Rules) (registry : Registry) :
    (rules.bodies registry).Reflexive := by
  refine ⟨fun body => ?_, fun body => Rewrites.stays registry rules body .nothing⟩
  unfold bodies
  cases rules.closures with
  | true => exact Rewrites.stays registry rules body .nothing
  | false => rfl

theorem Rules.bodies_closures {rules : Rules} {registry : Registry} {body body' : Tree}
    (kept : body' = body ∨ rules.closures = true)
    (rewritten : Rewrites registry rules .node .nothing [body] [body']) :
    (rules.bodies registry).closures body body' := by
  unfold bodies
  cases closures : rules.closures with
  | true => exact rewritten
  | false =>
      rw [closures] at kept
      exact (kept.resolve_right (by simp)).symm

theorem Rules.bodies_inner {rules : Rules} {registry : Registry} {body body' : Tree}
    (related : (rules.bodies registry).closures body body') :
    (rules.bodies registry).procedures body body' := by
  unfold bodies at related ⊢
  cases closures : rules.closures with
  | true =>
      rw [closures] at related
      exact related
  | false =>
      rw [closures] at related
      have same : body = body' := related
      subst same
      exact Rewrites.stays registry rules body .nothing

def Simulates (context : Context) (rules : Rules) (run : Tree → Run Value) :
    Part → Known → List Tree → List Tree → Prop
  | .node, known, [node], [node'] => ∀ machine machine',
      machine.Matches (rules.bodies context.registry) machine' →
      InForce context.registry rules known machine.env →
      Conforms rules.inlining (rules.bodies context.registry)
        (Value.Like (rules.bodies context.registry))
        (evaluate context run node machine) (evaluate context run node' machine')
  | .node, _, _, _ => True
  | .arguments, known, nodes, nodes' => ∀ machine machine',
      machine.Matches (rules.bodies context.registry) machine' →
      InForce context.registry rules known machine.env →
      Conforms rules.inlining (rules.bodies context.registry)
        (ValuesLike (rules.bodies context.registry))
        (evaluateAll context run nodes machine) (evaluateAll context run nodes' machine')
  | .statements, known, nodes, nodes' => ∀ machine machine' last last',
      machine.Matches (rules.bodies context.registry) machine' →
      InForce context.registry rules known machine.env →
      Value.Like (rules.bodies context.registry) last last' →
      Conforms rules.inlining (rules.bodies context.registry)
        (Value.Like (rules.bodies context.registry))
        (evaluateSequence context run last nodes machine)
        (evaluateSequence context run last' nodes' machine')
  | .branches, known, nodes, nodes' => ∀ machine machine',
      machine.Matches (rules.bodies context.registry) machine' →
      InForce context.registry rules known machine.env →
      Conforms rules.inlining (rules.bodies context.registry)
        (Value.Like (rules.bodies context.registry))
        (evaluateBranches context run nodes machine)
        (evaluateBranches context run nodes' machine')
  | .parts, known, nodes, nodes' => ∀ machine machine',
      machine.Matches (rules.bodies context.registry) machine' →
      InForce context.registry rules known machine.env →
      Conforms rules.inlining (rules.bodies context.registry)
        (ParamsLike (rules.bodies context.registry))
        (evaluateParams context run nodes machine) (evaluateParams context run nodes' machine')

section Steps

variable {context : Context} {lenient : Bool} {bodies : Bodies} {run : Tree → Run Value}
  {machine machine' : Machine} {position : Position}

theorem read_conforms (matched : machine.Matches bodies machine') (name : String) :
    Conforms lenient bodies (Value.Like bodies) (readVariable name position machine)
      (readVariable name position machine') := by
  have found : Option.Rel (Value.Like bodies) (machine.env.get? name) (machine'.env.get? name) :=
    matched.like.env.vars.find name
  unfold readVariable Environment.read
  generalize machine.env.get? name = value at found
  generalize machine'.env.get? name = value' at found
  cases found with
  | some related => exact .ok related matched
  | none => exact .same rfl matched

theorem definition_conforms (matched : machine.Matches bodies machine') {nameNode nameNode' : Tree}
    {parts parts' : List Tree} (named : nameNode'.procedureName? = nameNode.procedureName?)
    (valid : nameNode' = nameNode ∨
      (nameNode.procedureName?.filter Tree.isProcedureName).isSome = true)
    (params : Conforms lenient bodies (ParamsLike bodies) (evaluateParams context run parts machine)
      (evaluateParams context run parts' machine'))
    (related : bodies.procedures (bodyOf parts) (bodyOf parts')) :
    Conforms lenient bodies (Value.Like bodies)
      (evaluateDefinition context run position (nameNode :: parts) machine)
      (evaluateDefinition context run position (nameNode' :: parts') machine') := by
  cases found : nameNode.procedureName?.filter Tree.isProcedureName with
  | none =>
      rw [found] at valid
      rw [valid.resolve_right (by simp)]
      have fails : ∀ (parts : List Tree) (machine : Machine),
          evaluateDefinition context run position (nameNode :: parts) machine =
            .error (.typeError (.procedureName nameNode.text) position) machine := by
        intro parts machine
        simp only [evaluateDefinition, bind_apply, definedName, found]
        rfl
      rw [fails, fails]
      exact .same rfl matched
  | some name =>
      have defines : ∀ (node : Tree) (parts : List Tree) (machine : Machine),
          node.procedureName?.filter Tree.isProcedureName = some name →
          evaluateDefinition context run position (node :: parts) machine =
            (evaluateParams context run parts >>= fun params machine => .ok .void
              { machine with env :=
                  machine.env.define ⟨name, params, bodyOf parts, position⟩ }) machine := by
        intro node parts machine given
        simp only [evaluateDefinition, bind_apply, definedName, given]
        rfl
      rw [defines nameNode parts machine found, defines nameNode' parts' machine' (named ▸ found)]
      apply params.bind
      intro made made' between between' alike matched' _
      exact .ok .void ⟨⟨matched'.like.env.define ⟨rfl, alike, related, rfl⟩,
        matched'.like.store⟩, matched'.clear⟩

theorem assignment_conforms {first first' expression expression' : Tree} {target : String}
    (named : first.payload = .variable target) (named' : first'.payload = .variable target)
    (value : Conforms lenient bodies (Value.Like bodies) (evaluate context run expression machine)
      (evaluate context run expression' machine')) :
    Conforms lenient bodies (Value.Like bodies)
      (evaluateAssignment context run position [first, expression] machine)
      (evaluateAssignment context run position [first', expression'] machine') := by
  rcases first with ⟨payload, _, _, _, _⟩
  rcases first' with ⟨payload', _, _, _, _⟩
  subst named named'
  simp only [evaluateAssignment]
  apply value.bind
  intro item item' between between' related matched _
  exact .ok related ⟨⟨matched.like.env.set target related, matched.like.store⟩, matched.clear⟩

theorem call_conforms (runs : RunsAlike lenient bodies run)
    (matched : machine.Matches bodies machine') {children children' : List Tree} (name : String)
    (arguments : Conforms lenient bodies (ValuesLike bodies)
      (evaluateAll context run children machine) (evaluateAll context run children' machine')) :
    Conforms lenient bodies (Value.Like bodies)
      (evaluateCall context run position children name machine)
      (evaluateCall context run position children' name machine') := by
  have found : Option.Rel (Procedure.Like bodies) (machine.env.procedure? name)
      (machine'.env.procedure? name) := matched.like.env.procedures.find name
  unfold evaluateCall
  generalize machine.env.procedure? name = procedure at found
  generalize machine'.env.procedure? name = procedure' at found
  cases found with
  | none => exact .same rfl matched
  | some related =>
      apply arguments.bind
      intro values values' between between' alike matched' _
      exact call_procedure_conforms runs matched' related alike

/-- A decision that went one way goes the same way for values that are alike. -/
theorem branch_conforms {decision decision' : Value} (alike : decision.Like bodies decision')
    {taken taken' rest rest' : Run Value}
    (whenTrue : decision.isTruthy = true → Conforms lenient bodies (Value.Like bodies)
      (taken machine) (taken' machine'))
    (whenFalse : decision.isTruthy = false → Conforms lenient bodies (Value.Like bodies)
      (rest machine) (rest' machine')) :
    Conforms lenient bodies (Value.Like bodies)
      ((if decision.isTruthy then taken else rest) machine)
      ((if decision'.isTruthy then taken' else rest') machine') := by
  rw [← alike.truthy]
  cases truth : decision.isTruthy with
  | true => exact whenTrue truth
  | false => exact whenFalse truth

theorem decided_conforms {condition condition' : Tree} {value : Value}
    (decided : condition'.payload = .literal value) {next : Value → Run Value} {target : Run Value}
    (matched : machine.Matches bodies machine')
    (first : Conforms lenient bodies (Value.Like bodies) (evaluate context run condition machine)
      (evaluate context run condition' machine'))
    (others : ∀ decision between, evaluate context run condition machine = .ok decision between →
      decision.isTruthy = value.isTruthy → between.Matches bodies machine' →
      Conforms lenient bodies (Value.Like bodies) (next decision between) (target machine')) :
    Conforms lenient bodies (Value.Like bodies)
      ((evaluate context run condition >>= next) machine) (target machine') := by
  rcases condition' with ⟨payload, _, _, _, _⟩
  subst decided
  rw [evaluate_literal, unless_interrupted_clear _ matched.clear'] at first
  rw [bind_apply]
  generalize begun : evaluate context run condition machine = outcome at first others
  cases first with
  | ok related matched' => exact others _ _ rfl related.truthy matched'
  | excused on => exact .excused on

theorem constants_conform {children children' : List Tree}
    (constant : children'.all Tree.isConstant = true) {next : List Value → Run Value}
    {target : Run Value} (matched : machine.Matches bodies machine')
    (first : Conforms lenient bodies (ValuesLike bodies)
      (evaluateAll context run children machine) (evaluateAll context run children' machine'))
    (others : ∀ values between, ValuesLike bodies values (children'.filterMap Tree.value?) →
      between.Matches bodies machine' →
      Conforms lenient bodies (Value.Like bodies) (next values between) (target machine')) :
    Conforms lenient bodies (Value.Like bodies)
      ((evaluateAll context run children >>= next) machine) (target machine') := by
  rw [evaluate_all_constant matched.clear' constant] at first
  rw [bind_apply]
  generalize evaluateAll context run children machine = outcome at first
  cases first with
  | ok related matched' => exact others _ _ related matched'
  | excused on => exact .excused on

theorem folded_conforms (faithful : context.registry.FoldsFaithfully)
    (respects : context.registry.Respects bodies) (quiet : context.registry.NeverInterrupts)
    {name : String} {builtin : Builtin} (found : context.registry.find? name = some builtin)
    {children' : List Tree} (accepted : builtin.arity.accepts children'.length = true)
    (constant : children'.all Tree.isConstant = true)
    (foldable : builtin.isFoldable children' = true) {value : Value} {store store' : Store}
    (ran : builtin.run ⟨position, none, context.registry.catalogue⟩
      (children'.filterMap Tree.value?) store = .ok value store')
    (matched : machine.Matches bodies machine') {values : List Value}
    (given : ValuesLike bodies values (children'.filterMap Tree.value?)) :
    Conforms lenient bodies (Value.Like bodies)
      (callBuiltin context builtin name position values machine) (.ok value machine') := by
  have conforms : Conforms lenient bodies (Value.Like bodies)
      (callBuiltin context builtin name position values machine)
      (callBuiltin context builtin name position (children'.filterMap Tree.value?) machine') :=
    call_builtin_conforms respects quiet found matched position given
  rcases faithful name builtin children' found constant foldable with ⟨result, same⟩
  rw [same] at ran
  have counted : builtin.arity.accepts (children'.filterMap Tree.value?).length = true := by
    rw [values_length constant]
    exact accepted
  have folded : callBuiltin context builtin name position (children'.filterMap Tree.value?)
      machine' = .ok value machine' := by
    rw [call_builtin_accepted counted, same]
    cases result with
    | error fault => cases ran
    | ok result =>
        cases ran
        rfl
  rw [folded] at conforms
  exact conforms

/-- What answers on one machine conforms to whatever the answer conforms to. -/
theorem Answers.conforms {rules : Rules} {source target : Run Value}
    {outcome : EStateM.Result EvalError Machine Value} (on : rules.inlining = true)
    (distinct : rules.distinct = true) (answers : Answers rules machine source target)
    (conforms : Conforms rules.inlining bodies (Value.Like bodies) (target machine) outcome) :
    Conforms rules.inlining bodies (Value.Like bodies) (source machine) outcome := by
  cases done : source machine with
  | ok value after =>
      rcases answers.of_ok done with ⟨rfl, reached⟩
      rw [← reached]
      exact conforms
  | error error after =>
      cases error with
      | returned value =>
          rcases answers.of_returned done with ⟨rfl, reached⟩
          rw [← reached]
          exact conforms
      | stackOverflow depth limit => exact .excused on
      | _ =>
          rcases answers.of_ordinary done rfl distinct with ⟨cause, after', reached, ordinary⟩
          rw [reached] at conforms
          cases conforms with
          | returned => cases ordinary
          | same other matched => exact .failed on rfl ordinary
          | failed _ _ ordinary' => exact .failed on rfl ordinary'
          | excused => cases ordinary

theorem default_parameter_conforms (name : String) {expression expression' : Tree}
    (value : Conforms lenient bodies (Value.Like bodies) (evaluate context run expression machine)
      (evaluate context run expression' machine')) :
    Conforms lenient bodies
      (fun param param' : Param => ∀ params params', ParamsLike bodies params params' →
        ParamsLike bodies (param :: params) (param' :: params'))
      ((evaluate context run expression >>= fun value => pure ⟨name, value⟩) machine)
      ((evaluate context run expression' >>= fun value => pure ⟨name, value⟩) machine') := by
  apply value.bind
  exact fun item item' between between' related matched _ =>
    .ok (fun _ _ others => .cons name related others) matched

end Steps

section Simulation

variable {context : Context} {rules : Rules} {calls : Nat}

/-- Rewritings conform, given that the bodies of procedures and closures do. -/
theorem simulates (apart : rules.inlining = true → context.registry.KeepsNamesApart)
    (faithful : context.registry.FoldsFaithfully)
    (respects : context.registry.Respects (rules.bodies context.registry))
    (quiet : context.registry.NeverInterrupts)
    (strict : rules.inlining = true → rules.distinct = true) (tight : rules.loose = false)
    (runs : RunsAlike rules.inlining (rules.bodies context.registry) (bodyRunner context calls))
    {part : Part} {known : Known} {nodes nodes' : List Tree}
    (rewritten : Rewrites context.registry rules part known nodes nodes') :
    Simulates context rules (bodyRunner context calls) part known nodes nodes' := by
  have reflexive := rules.bodies_reflexive context.registry
  have upheld : ∀ {part : Part} {known : Known} {nodes nodes' : List Tree},
      Rewrites context.registry rules part known nodes nodes' →
      Upholds context rules (bodyRunner context calls) part known nodes nodes' :=
    fun rewritten => rewriting_upholds apart faithful rewritten calls
  induction rewritten with
  | literal known value =>
      intro machine machine' matched inForce
      rw [evaluate_literal, evaluate_literal]
      exact .unless_interrupted matched (.ok (.refl reflexive.closures value) matched)
  | «variable» known name position =>
      intro machine machine' matched inForce
      rw [evaluate_variable, evaluate_variable]
      exact .unless_interrupted matched (read_conforms matched name)
  | stuck known error ordinary fails =>
      intro machine machine' matched inForce
      rw [fails context _ rfl]
      exact .unless_interrupted matched (.same (EvalError.ordinary_no_return ordinary) matched)
  | sequence _ _ _ _ _ _ special isSeq special' isSeq' statements induction =>
      intro machine machine' matched inForce
      rw [evaluate_sequence_node _ _ _ _ _ _ special isSeq,
        evaluate_sequence_node _ _ _ _ _ _ special' isSeq']
      exact .unless_interrupted matched (induction machine machine' _ _ matched inForce .void)
  | branching position _ _ special branching accepted branches chooses induction =>
      intro machine machine' matched inForce
      rw [evaluate_branch_node _ _ _ _ _ _ special branching accepted, chooses.evaluates]
      exact .unless_interrupted matched (induction machine machine' matched inForce)
  | definition position _ _ _ _ special special' named valid parts body induction inductionBody =>
      intro machine machine' matched inForce
      rw [evaluate_form _ _ _ _ _ _ special (by simp [SpecialForm.arity]),
        evaluate_form _ _ _ _ _ _ special' (by simp [SpecialForm.arity])]
      exact .unless_interrupted matched (definition_conforms matched named valid
        (induction machine machine' matched inForce) body)
  | assignment position _ _ _ _ special special' named named' expression induction =>
      intro machine machine' matched inForce
      rw [evaluate_form _ _ _ _ _ _ special (by simp [SpecialForm.arity]),
        evaluate_form _ _ _ _ _ _ special' (by simp [SpecialForm.arity])]
      exact .unless_interrupted matched (assignment_conforms named named'
        (induction machine machine' matched inForce))
  | returning _ _ _ _ _ _ special special' accepted accepted' statements induction =>
      intro machine machine' matched inForce
      rw [evaluate_form _ _ _ _ _ _ special accepted,
        evaluate_form _ _ _ _ _ _ special' accepted']
      apply Conforms.unless_interrupted matched
      apply (induction machine machine' _ _ matched inForce .void).bind
      exact fun value value' between between' related matched' _ => .returned related matched'
  | closure position _ _ _ _ special special' parts kept body induction inductionBody =>
      intro machine machine' matched inForce
      rw [evaluate_form _ _ _ _ _ _ special (by simp [SpecialForm.arity]),
        evaluate_form _ _ _ _ _ _ special' (by simp [SpecialForm.arity])]
      apply Conforms.unless_interrupted matched
      apply (induction machine machine' matched inForce).bind
      intro params params' between between' related matched' _
      exact capture_conforms matched' related (rules.bodies_closures kept (body tight)) position
  | execution position _ _ _ _ special special' accepted accepted' arguments induction =>
      intro machine machine' matched inForce
      rw [evaluate_form _ _ _ _ _ _ special accepted,
        evaluate_form _ _ _ _ _ _ special' accepted']
      apply Conforms.unless_interrupted matched
      apply (induction machine machine' matched inForce).bind
      intro values values' between between' related matched' _
      exact call_value_conforms runs (fun _ _ => rules.bodies_inner) matched' position related
  | procedureCall position _ _ _ _ plain named arguments induction =>
      intro machine machine' matched inForce
      rw [evaluate_call _ _ _ _ _ _ plain named, evaluate_call _ _ _ _ _ _ plain named]
      exact .unless_interrupted matched (call_conforms runs matched _
        (induction machine machine' matched inForce))
  | builtinCall position _ _ _ _ plain named found arguments induction =>
      intro machine machine' matched inForce
      rw [evaluate_builtin _ _ _ _ _ _ plain named found,
        evaluate_builtin _ _ _ _ _ _ plain named found]
      apply Conforms.unless_interrupted matched
      apply (induction machine machine' matched inForce).bind
      intro values values' between between' related matched' _
      exact call_builtin_conforms respects quiet found matched' position related
  | fold position _ _ _ _ _ plain named found accepted arguments constant foldable ran induction =>
      intro machine machine' matched inForce
      rw [evaluate_builtin _ _ _ _ _ _ plain named found, evaluate_literal]
      apply Conforms.unless_interrupted matched
      apply constants_conform constant matched (induction machine machine' matched inForce)
      intro values between related matched'
      exact folded_conforms faithful respects quiet found accepted constant foldable ran matched'
        related
  | @inline known after name template position optimized facts children children' replacement
      node' inlining plain named arguments survives found instantiated nothing replaced induction
      inductionReplaced =>
      intro machine machine' matched inForce
      have quietArguments : ∀ argument ∈ children', argument.Calm context.registry :=
        fun argument member => (Tree.quiet_of_side_effect_free (apart inlining) argument
          ((accepts_parts (instantiate_accepts instantiated)).2 argument member)).calm
      rw [Tree.exposed_all_calm quietArguments] at survives
      have still : InForce context.registry rules after machine.env :=
        inForce.survives survives fun name _ => rfl
      rcases still name template found with ⟨procedure, bound, implemented⟩
      have answers := (upheld arguments machine inForce).2 quietArguments matched.clear
      have calls := known_call_answers (answers_bodies apart faithful _) (apart inlining)
        faithful.computes_purely matched.clear implemented instantiated answers
      have conforms := calls.conforms inlining (strict inlining)
        (inductionReplaced machine machine' matched still)
      rw [evaluate_call _ _ _ _ _ _ plain named, unless_interrupted_clear _ matched.clear,
        evaluate_call_found _ _ _ _ bound]
      exact conforms
  | same rewritten same induction =>
      intro machine machine' matched inForce
      rw [← same.evaluates]
      exact induction machine machine' matched inForce
  | noArguments known =>
      intro machine machine' matched inForce
      exact .ok .nil matched
  | argument node survives rest induction inductionRest =>
      intro machine machine' matched inForce
      rw [evaluateAll, evaluateAll]
      apply (induction machine machine' matched inForce).bind
      intro value value' between between' related matched' done
      have still := inForce.after_action survives (upheld node machine inForce).1 done
      apply (inductionRest between between' matched' still).bind
      exact fun values values' last last' others final _ => .ok (.cons related others) final
  | noStatements known =>
      intro machine machine' last last' matched inForce related
      exact .ok related matched
  | statement node survives spreads rest induction inductionRest =>
      intro machine machine' last last' matched inForce related
      rw [evaluateSequence, evaluate_sequence_append, spreads.evaluates]
      apply (induction machine machine' matched inForce).bind
      intro value value' between between' alike matched' done
      have still := inForce.after_action survives (upheld node machine inForce).1 done
      exact inductionRest between between' value value' matched' still alike
  | @definitionStatement known after name name' defined position optimized optimized' facts facts'
      nameNode nameNode' parts parts' rest rest' template body' expression special special' named
      named' valid rewrittenParts body sameBody returned described trusted known rewrittenRest
      induction inductionBody inductionRest =>
      intro machine machine' last last' matched inForce related
      rw [evaluateSequence, evaluateSequence]
      have made : Conforms rules.inlining (rules.bodies context.registry)
          (Value.Like (rules.bodies context.registry))
          (evaluate context (bodyRunner context calls)
            ⟨.call name, position, optimized, facts, nameNode :: parts⟩ machine)
          (evaluate context (bodyRunner context calls)
            ⟨.call name', position, optimized', facts', nameNode' :: parts'⟩ machine') := by
        rw [evaluate_form _ _ _ _ _ _ special (by simp [SpecialForm.arity]),
          evaluate_form _ _ _ _ _ _ special' (by simp [SpecialForm.arity])]
        apply Conforms.unless_interrupted matched
        apply definition_conforms matched (named'.trans named.symm) (Or.inr _)
          (induction machine machine' matched inForce) (.same body sameBody)
        simp [named, Option.filter, valid]
      apply made.bind
      intro value value' between between' alike matched' done
      have still := defined_in_force inForce special named valid
        (upheld rewrittenParts machine inForce) described.slots
        ⟨_, _, _, body, returned, described⟩ trusted known done
      exact inductionRest between between' value value' matched' still alike
  | noBranches known =>
      intro machine machine' matched inForce
      exact .ok .void matched
  | «otherwise» node induction =>
      intro machine machine' matched inForce
      rw [evaluateBranches, evaluateBranches]
      exact induction machine machine' matched inForce
  | taken condition decided truth survives branch induction inductionBranch =>
      intro machine machine' matched inForce
      rw [evaluateBranches, evaluateBranches]
      apply decided_conforms decided matched (induction machine machine' matched inForce)
      intro decision between done same matched'
      rcases decided_condition (upheld condition) inForce decided done with ⟨-, rfl⟩
      have still := inForce.survives survives fun name _ => rfl
      rw [if_pos (same.trans truth)]
      exact inductionBranch between machine' matched' still
  | dropped condition decided truth survives rest induction inductionRest =>
      intro machine machine' matched inForce
      rw [evaluateBranches]
      apply decided_conforms decided matched (induction machine machine' matched inForce)
      intro decision between done same matched'
      rcases decided_condition (upheld condition) inForce decided done with ⟨-, rfl⟩
      have still := inForce.survives survives fun name _ => rfl
      rw [if_neg (by simp [same, truth])]
      exact inductionRest between machine' matched' still
  | undecided condition survives branch survivesBranch rest induction inductionBranch
      inductionRest =>
      intro machine machine' matched inForce
      rw [evaluateBranches, evaluateBranches]
      apply (induction machine machine' matched inForce).bind
      intro decision decision' between between' alike matched' done
      have still := inForce.after_action survives (upheld condition machine inForce).1 done
      apply branch_conforms alike
      · exact fun _ => inductionBranch between between' matched' still
      · exact fun _ => inductionRest between between' matched'
          (still.survives survivesBranch fun name _ => rfl)
  | noParts known =>
      intro machine machine' matched inForce
      exact .ok .nil matched
  | body known node node' =>
      intro machine machine' matched inForce
      exact .ok .nil matched
  | @plainParameter known name node node' next next' rest rest' shape shape' later induction =>
      intro machine machine' matched inForce
      rcases node with ⟨payload, _, _, _, _⟩
      rcases node' with ⟨payload', _, _, _, _⟩
      subst shape shape'
      rw [evaluateParams, evaluateParams]
      apply (induction machine machine' matched inForce).bind
      exact fun params params' between between' others matched' _ =>
        .ok (.cons name .null others) matched'
  | @defaultParameter known after name position position' optimized optimized' facts facts' first
      first' expression expression' next next' others others' rest rest' target target' fewer
      rewritten survives later induction inductionRest =>
      intro machine machine' matched inForce
      rcases first with ⟨payload, _, _, _, _⟩
      rcases first' with ⟨payload', _, _, _, _⟩
      subst target target'
      rw [evaluateParams, evaluateParams, evaluate_param_assigned, evaluate_param_assigned]
      apply (default_parameter_conforms name (induction machine machine' matched inForce)).bind
      intro param param' between between' related matched' done
      rcases bind_eq_ok done with ⟨value, _, evaluated, built⟩
      cases built
      have still := inForce.after_action survives (upheld rewritten machine inForce).1 evaluated
      apply (inductionRest _ between' matched' still).bind
      exact fun params params' last last' others final _ => .ok (related _ _ others) final
  | malformedParameter known shape kept fewer =>
      intro machine machine' matched inForce
      rcases kept with rfl | ⟨loose, -⟩
      rotate_left
      · rw [tight] at loose
        cases loose
      rw [evaluateParams, evaluateParams, evaluate_param_malformed _ _ shape]
      exact .same rfl matched

/-- Bodies that stand for each other conform, however many calls are left. -/
theorem bodies_run_alike (apart : rules.inlining = true → context.registry.KeepsNamesApart)
    (faithful : context.registry.FoldsFaithfully)
    (respects : context.registry.Respects (rules.bodies context.registry))
    (quiet : context.registry.NeverInterrupts)
    (strict : rules.inlining = true → rules.distinct = true) (tight : rules.loose = false)
    (calls : Nat) :
    RunsAlike rules.inlining (rules.bodies context.registry) (bodyRunner context calls) := by
  induction calls with
  | zero => exact fun body body' related machine machine' matched => .same rfl matched
  | succ calls induction =>
      intro body body' related machine machine' matched
      exact simulates apart faithful respects quiet strict tight induction related machine machine'
        matched .nothing

/-- A script and what an optimizer makes of it conform, evaluated on one machine. -/
theorem rewriting_conforms (apart : rules.inlining = true → context.registry.KeepsNamesApart)
    (faithful : context.registry.FoldsFaithfully)
    (respects : context.registry.Respects (rules.bodies context.registry))
    (quiet : context.registry.NeverInterrupts)
    (strict : rules.inlining = true → rules.distinct = true) (tight : rules.loose = false)
    {tree tree' : Tree}
    (rewritten : Rewrites context.registry rules .node .nothing [tree] [tree'])
    {machine : Machine} (clear : machine.store.interrupted = false) :
    Conforms rules.inlining (rules.bodies context.registry)
      (Value.Like (rules.bodies context.registry)) (tree.eval context machine)
      (tree'.eval context machine) := by
  rw [eval_apply, eval_apply]
  apply simulates apart faithful respects quiet strict tight
    (bodies_run_alike apart faithful respects quiet strict tight _) rewritten
  · exact ⟨.refl (rules.bodies_reflexive _) machine, clear⟩
  · exact .nothing

end Simulation

end TreeScript
