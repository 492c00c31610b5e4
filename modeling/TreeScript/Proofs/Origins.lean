import Mathlib.Logic.Relation
import TreeScript.Proofs.Preservation
/-!
# The definition in force

A template that the optimizer finds for a call was made of one definition of the script. This module
says that the procedure which the call reaches is the one that was made of that same definition.

To say so, a walk goes along a script with the optimizer and with an evaluation at once. At each
place it has what the optimizer has on its way there and the machine on which the place is
evaluated, and it remembers which definitions stood directly in the sequences around it. The walk
enters the body of a procedure on any machine at all, and that of a closure on any machine that has
the procedures that the closure captured. No evaluation gets to the body of a closure otherwise,
unless the host changes what the closure captured.
-/

namespace TreeScript

set_option autoImplicit false

/-- A definition that stood directly in a sequence: what the optimizer recorded of it, and the
procedure that its evaluation left behind. -/
structure Origin where
  definition : Tree
  recorded : Option Definition
  procedure : Procedure

/-- The last definition of each name that stood directly in a sequence around a place. -/
abbrev Origins := String → Option Origin

namespace Origins

def nothing : Origins := fun _ => none

/-- What a statement adds that has been visited and evaluated. -/
def after (origins : Origins) (statement : Tree) (progress : Progress) (machine : Machine) :
    Origins := fun name =>
  if statement.definition? = some name then
    (machine.env.procedure? name).map fun procedure =>
      ⟨statement, progress.scopes.find? name, procedure⟩
  else origins name

end Origins

/-- Where the optimizer and an evaluation have got to. -/
structure Moment where
  progress : Progress
  origins : Origins
  calls : Nat
  machine : Machine

namespace Moment

def enter (moment : Moment) (kind : FrameKind) : Moment :=
  { moment with
    progress := { moment.progress with scopes := moment.progress.scopes.push kind } }

def move (moment : Moment) (progress : Progress) (machine : Machine) : Moment :=
  { moment with progress, machine }

def pass (moment : Moment) (statement : Tree) (progress : Progress) (machine : Machine) : Moment :=
  { moment.move progress machine with
    origins := moment.origins.after statement progress machine }

end Moment

/-- How nodes are visited and evaluated. The parts of a definition or a closure are its parameters
and its body. -/
inductive Place where
  | node
  | arguments
  | statements
  | branches
  | definition
  | closure
deriving DecidableEq

structure Point where
  place : Place
  nodes : List Tree
  moment : Moment

def Point.start (context : Context) (tree : Tree) (store : Store) (machine : Machine) : Point :=
  ⟨.node, [tree], ⟨⟨Scopes.initial, store⟩, .nothing, context.maxDepth - machine.env.depth,
    machine⟩⟩

inductive Leads (optimizer : Optimizer) (revisit : Option (Tree → Pass Tree)) (context : Context) :
    Point → Point → Prop where
  | sequence {name : String} {form : SpecialForm} (position : Position) (facts : Facts)
      {children : List Tree} {moment : Moment} :
      SpecialForm.ofName? name = some form → form.isSequence = true →
      Leads optimizer revisit context
        ⟨.node, [⟨.call name, position, false, facts, children⟩], moment⟩
        ⟨.statements, children, moment.enter .sequence⟩
  | branching {name : String} {form : SpecialForm} (position : Position) (facts : Facts)
      {children : List Tree} {moment : Moment} :
      SpecialForm.ofName? name = some form → form = .conditional ∨ form = .choice →
      Leads optimizer revisit context
        ⟨.node, [⟨.call name, position, false, facts, children⟩], moment⟩
        ⟨.branches, children, moment⟩
  | assignment {name target : String} (position : Position) (facts : Facts)
      {first expression : Tree} {moment : Moment} :
      SpecialForm.ofName? name = some .assignment → first.payload = .variable target →
      Leads optimizer revisit context
        ⟨.node, [⟨.call name, position, false, facts, [first, expression]⟩], moment⟩
        ⟨.node, [expression], moment⟩
  | evaluating {name : String} {form : SpecialForm} (position : Position) (facts : Facts)
      {children : List Tree} {moment : Moment} :
      SpecialForm.ofName? name = some form → form = .returning ∨ form = .execution →
      Leads optimizer revisit context
        ⟨.node, [⟨.call name, position, false, facts, children⟩], moment⟩
        ⟨.arguments, children, moment⟩
  | call {name : String} (position : Position) (facts : Facts) {children : List Tree}
      {moment : Moment} : SpecialForm.ofName? name = none →
      Leads optimizer revisit context
        ⟨.node, [⟨.call name, position, false, facts, children⟩], moment⟩
        ⟨.arguments, children, moment⟩
  | definition {name : String} (position : Position) (facts : Facts) {nameNode : Tree}
      {parts : List Tree} {moment : Moment} : SpecialForm.ofName? name = some .procedure →
      Leads optimizer revisit context
        ⟨.node, [⟨.call name, position, false, facts, nameNode :: parts⟩], moment⟩
        ⟨.definition, parts, moment⟩
  | closure {name : String} (position : Position) (facts : Facts) {parts : List Tree}
      {moment : Moment} : SpecialForm.ofName? name = some .closure →
      Leads optimizer revisit context
        ⟨.node, [⟨.call name, position, false, facts, parts⟩], moment⟩
        ⟨.closure, parts, moment.enter .closure⟩
  | argument {node : Tree} {rest : List Tree} {moment : Moment} :
      Leads optimizer revisit context
        ⟨.arguments, node :: rest, moment⟩ ⟨.node, [node], moment⟩
  | nextArgument {node node' : Tree} {rest : List Tree} {moment : Moment} {progress : Progress}
      {machine : Machine} {value : Value} :
      optimizer.visit revisit node moment.progress = .ok node' progress →
      evaluate context (bodyRunner context moment.calls) node moment.machine =
        .ok value machine →
      Leads optimizer revisit context
        ⟨.arguments, node :: rest, moment⟩ ⟨.arguments, rest, moment.move progress machine⟩
  | statement {node : Tree} {rest : List Tree} {moment : Moment} :
      Leads optimizer revisit context
        ⟨.statements, node :: rest, moment⟩ ⟨.node, [node], moment⟩
  | nextStatement {node : Tree} {nodes' rest : List Tree} {moment : Moment} {progress : Progress}
      {machine : Machine} {value : Value} :
      optimizer.visitStatements revisit [node] moment.progress = .ok nodes' progress →
      evaluate context (bodyRunner context moment.calls) node moment.machine =
        .ok value machine →
      Leads optimizer revisit context
        ⟨.statements, node :: rest, moment⟩ ⟨.statements, rest, moment.pass node progress machine⟩
  | otherwise {node : Tree} {moment : Moment} :
      Leads optimizer revisit context ⟨.branches, [node], moment⟩ ⟨.node, [node], moment⟩
  | condition {condition branch : Tree} {rest : List Tree} {moment : Moment} :
      Leads optimizer revisit context
        ⟨.branches, condition :: branch :: rest, moment⟩ ⟨.node, [condition], moment⟩
  | branch {condition condition' branch : Tree} {rest : List Tree} {moment : Moment}
      {progress : Progress} {machine : Machine} {decision : Value} :
      optimizer.visit revisit condition moment.progress = .ok condition' progress →
      optimizer.decide? condition' ≠ some false →
      evaluate context (bodyRunner context moment.calls) condition moment.machine =
        .ok decision machine → decision.isTruthy = true →
      Leads optimizer revisit context
        ⟨.branches, condition :: branch :: rest, moment⟩
        ⟨.node, [branch], moment.move progress machine⟩
  | dropped {condition condition' branch : Tree} {rest : List Tree} {moment : Moment}
      {progress : Progress} {machine : Machine} {decision : Value} :
      optimizer.visit revisit condition moment.progress = .ok condition' progress →
      optimizer.decide? condition' = some false →
      evaluate context (bodyRunner context moment.calls) condition moment.machine =
        .ok decision machine → decision.isTruthy = false →
      Leads optimizer revisit context
        ⟨.branches, condition :: branch :: rest, moment⟩
        ⟨.branches, rest, moment.move progress machine⟩
  | undecided {condition condition' branch branch' : Tree} {rest : List Tree} {moment : Moment}
      {decided progress : Progress} {machine : Machine} {decision : Value} :
      optimizer.visit revisit condition moment.progress = .ok condition' decided →
      optimizer.decide? condition' = none →
      optimizer.visit revisit branch decided = .ok branch' progress →
      evaluate context (bodyRunner context moment.calls) condition moment.machine =
        .ok decision machine → decision.isTruthy = false →
      Leads optimizer revisit context
        ⟨.branches, condition :: branch :: rest, moment⟩
        ⟨.branches, rest, moment.move progress machine⟩
  | default {place : Place} {target : String} (position : Position) (facts : Facts)
      {first expression next : Tree} {others rest : List Tree} {moment : Moment} :
      place = .definition ∨ place = .closure → first.payload = .variable target →
      Leads optimizer revisit context
        ⟨place, ⟨.call SpecialForm.assignment.name, position, false, facts,
          first :: expression :: others⟩ :: next :: rest, moment⟩
        ⟨.node, [expression], moment⟩
  | nextParameter {place : Place} {node node' next : Tree} {rest : List Tree} {moment : Moment}
      {progress : Progress} {machine : Machine} {param : Param} :
      place = .definition ∨ place = .closure →
      optimizer.visit revisit node moment.progress = .ok node' progress →
      evaluateParam context (bodyRunner context moment.calls) node moment.machine =
        .ok param machine →
      Leads optimizer revisit context
        ⟨place, node :: next :: rest, moment⟩ ⟨place, next :: rest, moment.move progress machine⟩
  | procedureBody {body : Tree} {moment : Moment} (calls : Nat) (machine : Machine) :
      Leads optimizer revisit context
        ⟨.definition, [body], moment⟩
        ⟨.node, [body],
          { moment.enter .procedure with origins := .nothing, calls, machine }⟩
  | closureBody {body : Tree} {moment : Moment} (calls : Nat) {machine : Machine} :
      machine.env.procedures = moment.machine.env.procedures →
      Leads optimizer revisit context
        ⟨.closure, [body], moment⟩ ⟨.node, [body], { moment with calls, machine }⟩

namespace Origins

/-- What is known was recorded of the definitions remembered, and what they made is in force. -/
def Back (context : Context) (origins : Origins) (known : Known) (env : Environment) : Prop :=
  ∀ name template, known name = some template →
    ∃ origin, origins name = some origin ∧ origin.recorded = some (.inlinable template) ∧
      env.procedure? name = some origin.procedure ∧
      origin.procedure.CreatedBy context origin.definition

variable {context : Context} {origins : Origins} {known after : Known} {env env' : Environment}
  {names : List String}

theorem Back.survives (back : origins.Back context known env)
    (survives : known.Survives names after)
    (kept : ∀ name, name ∉ names → env'.procedure? name = env.procedure? name) :
    origins.Back context after env' := by
  intro name template found
  rcases survives name template found with ⟨before, outside⟩
  rcases back name template before with ⟨origin, remembered, recorded, bound, created⟩
  exact ⟨origin, remembered, recorded, (kept name outside).trans bound, created⟩

end Origins

section Definitions

variable {context : Context} {name defined : String} {position : Position} {optimized : Bool}
  {facts : Facts} {nameNode : Tree} {parts : List Tree}

theorem definition_of_name (special : SpecialForm.ofName? name = some .procedure)
    (given : nameNode.procedureName? = some defined) :
    Tree.definition? ⟨.call name, position, optimized, facts, nameNode :: parts⟩ =
      some defined := by
  have named : Tree.specialForm? ⟨.call name, position, optimized, facts, nameNode :: parts⟩ =
    some .procedure := special
  rw [Tree.definition?, if_pos named]
  exact given

theorem Procedure.created_by_evaluation {run : Tree → Run Value} {before after : Machine}
    {value : Value} (special : SpecialForm.ofName? name = some .procedure)
    (given : nameNode.procedureName? = some defined)
    (evaluated : evaluate context run ⟨.call name, position, optimized, facts, nameNode :: parts⟩
      before = .ok value after) :
    ∃ procedure : Procedure, after.env.procedure? defined = some procedure ∧
      procedure.CreatedBy context ⟨.call name, position, optimized, facts, nameNode :: parts⟩ := by
  have steps := evaluated
  rw [evaluate_form _ _ _ _ _ _ special (by simp [SpecialForm.arity])] at steps
  rcases evaluate_definition_ok _ _ _ (unless_interrupted_ok steps).2 with
    ⟨created, params, middle, found, made, -, rfl⟩
  rw [given] at found
  rcases Option.filter_eq_some_iff.mp found with ⟨same, -⟩
  cases same
  have bound : (middle.env.define ⟨defined, params, bodyOf parts, position⟩).procedure? defined =
      some ⟨defined, params, bodyOf parts, position⟩ := by
    unfold Environment.procedure? Environment.define
    rw [Bindings.find?_put, if_pos rfl]
  exact ⟨_, bound, definition_of_name special given, _, _, _, _, evaluated, bound⟩

end Definitions

section Closures

variable {env copied : Environment} {fresh fresh' : Nat}

theorem Environment.copy_procedures (done : env.copy fresh = .ok copied fresh') :
    copied.procedures = env.procedures := by
  unfold Environment.copy at done
  rcases bind_eq_ok done with ⟨entries, between, -, made⟩
  cases made
  rfl

theorem captured_procedures {params : List Param} {body : Tree} {position : Position}
    {value : Value} {before after : Machine}
    (captured : captureClosure params body position before = .ok value after) :
    ∃ closure, value = .closure closure ∧ closure.body = body ∧
      (after.store.environmentOf closure).procedures = before.env.procedures := by
  rw [capture_closure_apply] at captured
  cases copied : before.env.copy before.store.resources with
  | ok env fresh =>
      rw [copied] at captured
      cases captured
      refine ⟨_, rfl, rfl, ?_⟩
      rw [← Environment.copy_procedures copied]
      simp [Store.environmentOf]
  | error error fresh =>
      rw [copied] at captured
      cases captured

/-- A body runs only with the procedures of the scope that it is invoked in. -/
theorem invoke_runs_in_scope {context : Context} {run run' : Tree → Run Value}
    {params : List Param} {body : Tree} {arguments : List Value} {scope : Environment}
    (alike : ∀ entered : Machine, entered.env.procedures = scope.procedures →
      run body entered = run' body entered) (machine : Machine) :
    invoke context run params body arguments scope machine =
      invoke context run' params body arguments scope machine := by
  unfold invoke
  rw [bind_apply, bind_apply]
  cases enters : scope.enterCall context.maxDepth with
  | error error => rfl
  | ok entered =>
      show (Run.copying _ >>= _) machine = (Run.copying _ >>= _) machine
      rw [bind_apply, bind_apply, copying_apply]
      cases binds : entered.bindArguments params arguments machine.store.resources with
      | error error fresh => rfl
      | ok bound fresh =>
          have procedures : bound.procedures = scope.procedures := by
            rw [Environment.bind_arguments_scope binds, (Environment.enter_call_ok enters).2]
          show runBody run bound body _ = runBody run' bound body _
          rw [run_body_apply, run_body_apply, alike _ procedures]

/-- The body of a closure runs only with the procedures that the closure captured. -/
theorem closure_runs_in_capture {context : Context} {run run' : Tree → Run Value}
    {closure : Closure} {arguments : List Value} {depth : Nat} {machine : Machine}
    (alike : ∀ entered : Machine,
      entered.env.procedures = (machine.store.environmentOf closure).procedures →
      run closure.body entered = run' closure.body entered) :
    callClosure context run closure arguments depth machine =
      callClosure context run' closure arguments depth machine := by
  show (Run.copying _ >>= _) machine = (Run.copying _ >>= _) machine
  rw [bind_apply, bind_apply, copying_apply]
  cases copied : (machine.store.environmentOf closure).copy machine.store.resources with
  | error error fresh => rfl
  | ok scope fresh =>
      apply invoke_runs_in_scope
      intro entered same
      have procedures : scope.procedures = (machine.store.environmentOf closure).procedures :=
        Environment.copy_procedures copied
      exact alike entered (same.trans procedures)

end Closures
section Walks

variable {context : Context} {options : OptimizeOptions} {rules : Rules} {depth : Nat}

structure Moment.Sound (context : Context) (rules : Rules) (moment : Moment) : Prop where
  fit : moment.progress.scopes.Fit context.registry rules
  inForce : InForce context.registry rules (rules.known moment.progress.scopes) moment.machine.env
  back : moment.origins.Back context (rules.known moment.progress.scopes) moment.machine.env

structure Point.Sound (context : Context) (rules : Rules) (point : Point) : Prop where
  moment : point.moment.Sound context rules
  ready : ∀ node ∈ point.nodes, node.Everywhere (Tree.Ready rules)

variable {moment : Moment} {progress : Progress} {machine : Machine} {names : List String}

/-- Names that are hidden on the way cover all that is defined on the way. -/
theorem Moment.Sound.move (sound : moment.Sound context rules)
    (hides : rules.Hides names moment.progress.scopes progress.scopes)
    (kept : ∀ name, name ∉ names →
      machine.env.procedure? name = moment.machine.env.procedure? name) :
    (moment.move progress machine).Sound context rules := by
  have survives := hides.survives sound.fit.some_frame
  exact ⟨sound.fit.hides hides, sound.inForce.survives survives kept,
    sound.back.survives survives kept⟩

theorem Moment.Sound.enter (sound : moment.Sound context rules) {kind : FrameKind}
    (other : kind ≠ .procedure) : (moment.enter kind).Sound context rules := by
  refine ⟨sound.fit.push kind, ?_, ?_⟩
  · have inForce := sound.inForce
    rw [← Rules.known_push other] at inForce
    exact inForce
  · have back := sound.back
    rw [← Rules.known_push other] at back
    exact back

/-- Nothing is known where the body of a procedure begins. -/
theorem Moment.Sound.entered (sound : moment.Sound context rules) (calls : Nat)
    (machine : Machine) :
    Moment.Sound context rules
      { moment.enter .procedure with origins := .nothing, calls, machine } := by
  have unknown : rules.known (moment.progress.scopes.push .procedure) = .nothing :=
    Rules.known_push_procedure _
  refine ⟨sound.fit.push .procedure, ?_, fun name template found => ?_⟩
  · show InForce context.registry rules (rules.known (moment.progress.scopes.push .procedure)) _
    rw [unknown]
    exact .nothing
  · have known : rules.known (moment.progress.scopes.push .procedure) name = some template := found
    rw [unknown] at known
    cases known

section Steps

variable (follows : Optimizer.Follows ⟨context.registry, options⟩ rules)
  (faithful : context.registry.FoldsFaithfully) {node node' : Tree} {value : Value}

include follows

theorem visited_soundly (node : Tree) :
    node.VisitedSoundly ⟨context.registry, options⟩ rules
      (some (Optimizer.pass ⟨context.registry, options⟩ depth)) :=
  Tree.Everywhere.intro (fun _ _ _ _ _ _ ready => pass_visited follows (depth + 1) _ ready) node

include faithful

/-- The knowledge is still in force after a node that has been visited and evaluated. -/
theorem Moment.Sound.passed (sound : moment.Sound context rules)
    (ready : node.Everywhere (Tree.Ready rules))
    (visited : Optimizer.visit ⟨context.registry, options⟩
      (some (Optimizer.pass ⟨context.registry, options⟩ depth)) node moment.progress =
        .ok node' progress)
    (evaluated : evaluate context (bodyRunner context moment.calls) node moment.machine =
      .ok value machine) : (moment.move progress machine).Sound context rules := by
  have seen := (visited_soundly follows node).here ready moment.progress node' progress sound.fit
    visited
  have upheld := rewriting_upholds follows.apart faithful seen.rewrites moment.calls
  exact sound.move seen.hides ((upheld moment.machine sound.inForce).1 value machine evaluated)

/-- What is known after a direct definition was recorded of it or was known before. -/
theorem Moment.Sound.defined {name : String} {position : Position} {facts : Facts}
    {children nodes' : List Tree} (on : rules.inlining = true)
    (special : SpecialForm.ofName? name = some .procedure) (sound : moment.Sound context rules)
    (ready : Tree.Everywhere (Tree.Ready rules) ⟨.call name, position, false, facts, children⟩)
    (visited : Optimizer.visitStatements ⟨context.registry, options⟩
      (some (Optimizer.pass ⟨context.registry, options⟩ depth))
      [⟨.call name, position, false, facts, children⟩] moment.progress = .ok nodes' progress)
    (evaluated : evaluate context (bodyRunner context moment.calls)
      ⟨.call name, position, false, facts, children⟩ moment.machine = .ok value machine) :
    (moment.pass ⟨.call name, position, false, facts, children⟩ progress machine).Sound context
      rules := by
  rcases definition_statement_recorded follows special
    (fun child _ => visited_soundly follows child) ready sound.fit visited with
    ⟨nameNode, parts, defined, nameNode', parts', definition, frame, outer, between, rest', rfl,
      given, given', valid, finished, recorded, defines, fit, later, rfl⟩
  cases later
  have rewritten : Rewrites context.registry rules .node (rules.known moment.progress.scopes)
      [⟨.call name, position, false, facts, nameNode :: parts⟩]
      [⟨.call name, position, true, {}, nameNode' :: parts'⟩] :=
    recorded.rewrites special given given' valid
  have kept := (rewriting_upholds follows.apart faithful rewritten moment.calls moment.machine
    sound.inForce).1 value machine evaluated
  have known := fun other template => @known_after_definition rules moment.progress.scopes _ frame
    outer defined definition sound.fit.some_frame recorded.visited.hides on other template
  rw [← defines] at known
  have define : Tree.definition? ⟨.call name, position, false, facts, nameNode :: parts⟩ =
      some defined := definition_of_name special given
  have outside : ∀ other, other ≠ defined → other ∉ Tree.exposedParts parts' →
      machine.env.procedure? other = moment.machine.env.procedure? other :=
    fun other differs apart => kept other fun member =>
      (exposed_definition special given' member).elim differs apart
  refine ⟨fit, fun other template found => ?_, fun other template found => ?_⟩
  · rcases known other template found with ⟨rfl, rfl⟩ | ⟨before, differs, apart⟩
    · rcases recorded.template template rfl with
        ⟨params, body, body', expression, rfl, same, rewrittenBody, returned, -, described⟩
      have upheld := rewriting_upholds follows.apart faithful recorded.visited.rewrites moment.calls
      have slots : (params ++ [body']).dropLast.mapM Slot.ofNode? = some template.slots := by
        rw [List.dropLast_concat]
        exact described.slots
      have alone : InForce context.registry rules
          (fun another => if another = other then some template else none) machine.env := by
        apply defined_in_force sound.inForce special given valid
          (upheld moment.machine sound.inForce) slots ⟨_, _, _, rewrittenBody, returned, described⟩
          (recorded.sound follows.apart ready.here special on rfl).trusted _ evaluated
        intro another template' known'
        split at known'
        · rename_i same
          cases known'
          exact Or.inl ⟨same, rfl⟩
        · cases known'
      exact alone other template (if_pos rfl)
    · rcases sound.inForce other template before with ⟨procedure, bound, implemented⟩
      exact ⟨procedure, (outside other differs apart).trans bound, implemented⟩
  · rcases known other template found with ⟨rfl, rfl⟩ | ⟨before, differs, apart⟩
    · rcases Procedure.created_by_evaluation special given evaluated with
        ⟨procedure, bound, created⟩
      refine ⟨⟨_, progress.scopes.find? other, procedure⟩, ?_, ?_, bound, created⟩
      · simp only [Moment.pass, Origins.after, define, if_true, bound]
        rfl
      · exact Scopes.known_eq_some.mp (by rw [← Rules.known_on on]; exact found)
    · rcases sound.back other template before with ⟨origin, remembered, made, bound, created⟩
      refine ⟨origin, ?_, made, (outside other differs apart).trans bound, created⟩
      simp only [Moment.pass, Origins.after, define, Option.some.injEq, Ne.symm differs, if_false]
      exact remembered

/-- A statement that is no definition leaves what is remembered alone. -/
theorem Moment.Sound.stated {nodes' : List Tree} (on : rules.inlining = true)
    (sound : moment.Sound context rules) (ready : node.Everywhere (Tree.Ready rules))
    (visited : Optimizer.visitStatements ⟨context.registry, options⟩
      (some (Optimizer.pass ⟨context.registry, options⟩ depth)) [node] moment.progress =
        .ok nodes' progress)
    (evaluated : evaluate context (bodyRunner context moment.calls) node moment.machine =
      .ok value machine) : (moment.pass node progress machine).Sound context rules := by
  by_cases special : node.specialForm? = some .procedure
  · rcases node with ⟨payload, position, optimized, facts, children⟩
    cases optimized with
    | true => exact absurd special (ready.here.settled rfl).2
    | false =>
        cases payload with
        | call name => exact sound.defined follows faithful on special ready visited evaluated
        | _ => cases special
  · rcases visit_statement _ _ special visited with ⟨node', between, rest', first, later, rfl⟩
    cases later
    have none : node.definition? = none := if_neg special
    have same : moment.origins.after node progress machine = moment.origins := by
      funext name
      simp only [Origins.after, none, reduceCtorEq, if_false]
    have moved := sound.passed follows faithful ready first evaluated
    refine ⟨moved.fit, moved.inForce, ?_⟩
    show (moment.origins.after node progress machine).Back context _ _
    rw [same]
    exact moved.back

theorem Moment.Sound.parameter {param : Param} (sound : moment.Sound context rules)
    (ready : node.Everywhere (Tree.Ready rules))
    (visited : Optimizer.visit ⟨context.registry, options⟩
      (some (Optimizer.pass ⟨context.registry, options⟩ depth)) node moment.progress =
        .ok node' progress)
    (evaluated : evaluateParam context (bodyRunner context moment.calls) node moment.machine =
      .ok param machine) : (moment.move progress machine).Sound context rules := by
  have written : node.parameter?.isSome = true := by
    cases shape : node.parameter? with
    | some parameter => rfl
    | none =>
        rw [evaluate_param_malformed _ _ shape] at evaluated
        cases evaluated
  have seen := (visited_soundly follows node).here ready moment.progress node' progress sound.fit
    visited
  have body : Tree := .void .unknown
  have front := (parameter_visited (visited_soundly follows node) ready written sound.fit
    visited).2 body body [] [] (.body _ _ _)
  have upheld := rewriting_upholds follows.apart faithful front moment.calls
  have steps : evaluateParams context (bodyRunner context moment.calls) [node, body]
      moment.machine = .ok [param] machine := by
    rw [evaluateParams, bind_apply, evaluated]
    rfl
  apply sound.move seen.hides
  intro name outside
  apply (upheld moment.machine sound.inForce).1 [param] machine steps name
  simpa [Tree.exposedParts] using outside

/-- One step keeps what holds at every place. -/
theorem Leads.sound {point next : Point} (on : rules.inlining = true)
    (leads : Leads ⟨context.registry, options⟩
      (some (Optimizer.pass ⟨context.registry, options⟩ depth)) context point next)
    (sound : point.Sound context rules) : next.Sound context rules := by
  rcases sound with ⟨sound, ready⟩
  cases leads with
  | sequence position facts special isSeq =>
      exact ⟨sound.enter (by simp), (ready _ List.mem_cons_self).inside⟩
  | branching position facts special form => exact ⟨sound, (ready _ List.mem_cons_self).inside⟩
  | assignment position facts special target =>
      refine ⟨sound, fun node member => (ready _ List.mem_cons_self).inside node ?_⟩
      exact List.mem_cons_of_mem _ member
  | evaluating position facts special form => exact ⟨sound, (ready _ List.mem_cons_self).inside⟩
  | call position facts plain => exact ⟨sound, (ready _ List.mem_cons_self).inside⟩
  | definition position facts special =>
      refine ⟨sound, fun node member => (ready _ List.mem_cons_self).inside node ?_⟩
      exact List.mem_cons_of_mem _ member
  | closure position facts special =>
      exact ⟨sound.enter (by simp), (ready _ List.mem_cons_self).inside⟩
  | argument | statement | condition =>
      exact ⟨sound, fun node member => ready node (by simp_all)⟩
  | nextArgument visited evaluated =>
      exact ⟨sound.passed follows faithful (ready _ List.mem_cons_self) visited evaluated,
        fun node member => ready node (List.mem_cons_of_mem _ member)⟩
  | nextStatement visited evaluated =>
      exact ⟨sound.stated follows faithful on (ready _ List.mem_cons_self) visited evaluated,
        fun node member => ready node (List.mem_cons_of_mem _ member)⟩
  | otherwise => exact ⟨sound, ready⟩
  | branch visited taken evaluated truth =>
      refine ⟨sound.passed follows faithful (ready _ List.mem_cons_self) visited evaluated, ?_⟩
      exact fun node member => ready node (by simp_all)
  | dropped visited decided evaluated truth =>
      refine ⟨sound.passed follows faithful (ready _ List.mem_cons_self) visited evaluated, ?_⟩
      exact fun node member => ready node (by simp_all)
  | undecided visited decided visitedBranch evaluated truth =>
      have moved := sound.passed follows faithful (ready _ List.mem_cons_self) visited evaluated
      have seen := (visited_soundly follows _).here
        (ready _ (List.mem_cons_of_mem _ List.mem_cons_self)) _ _ _ moved.fit visitedBranch
      refine ⟨moved.move seen.hides fun name _ => rfl, ?_⟩
      exact fun node member => ready node (by simp_all)
  | default position facts place target =>
      refine ⟨sound, fun node member => (ready _ List.mem_cons_self).inside node ?_⟩
      simp_all
  | nextParameter place visited evaluated =>
      refine ⟨sound.parameter follows faithful (ready _ List.mem_cons_self) visited evaluated, ?_⟩
      exact fun node member => ready node (List.mem_cons_of_mem _ member)
  | procedureBody calls machine =>
      exact ⟨sound.entered calls machine, ready⟩
  | closureBody calls same =>
      have moved := sound.move (.refl _) fun name _ =>
        congrArg (fun procedures : Bindings Procedure => procedures.find? name) same
      exact ⟨⟨moved.fit, moved.inForce, moved.back⟩, ready⟩

end Steps

theorem walk_sound (on : rules.inlining = true)
    (follows : Optimizer.Follows ⟨context.registry, options⟩ rules)
    (faithful : context.registry.FoldsFaithfully) {start point : Point}
    (walk : Relation.ReflTransGen (Leads ⟨context.registry, options⟩
      (some (Optimizer.pass ⟨context.registry, options⟩ depth)) context) start point)
    (sound : start.Sound context rules) : point.Sound context rules := by
  induction walk with
  | refl => exact sound
  | tail _ leads induction => exact leads.sound follows faithful on induction

theorem start_sound {tree : Tree} {store : Store}
    (ready : tree.Everywhere (Tree.Ready rules)) :
    (Point.start context tree store machine).Sound context rules := by
  refine ⟨⟨.initial, ?_, ?_⟩, ?_⟩
  · show InForce context.registry rules (rules.known Scopes.initial) machine.env
    rw [Rules.known_initial]
    exact .nothing
  · intro name template found
    have known : rules.known Scopes.initial name = some template := found
    rw [Rules.known_initial] at known
    cases known
  · intro node member
    rw [List.mem_singleton.mp member]
    exact ready

/-- Calls are replaced in any script, and bodies of closures may become anything. -/
def Rules.searching : Rules :=
  { inlining := true, closures := true, distinct := false, loose := true }

/-- What the optimizer relies on where it looks for definitions. The array of all arguments hides no
parameter, a closure defines nothing while its parameters are evaluated, and there are no resources
that a call would duplicate. -/
structure Tree.Orderly (node : Tree) : Prop where
  unhidden : node.specialForm? = some .procedure →
    argumentsVariable ∉ parameterNames node.children.tail.dropLast
  enclosed : node.specialForm? = some .closure → exposedParts node.children = []
  plain : ∀ value, node.payload = .literal value → value.holdsResource = false

instance : DecidablePred Tree.Orderly := fun node =>
  decidable_of_iff
    ((node.specialForm? = some .procedure →
        argumentsVariable ∉ Tree.parameterNames node.children.tail.dropLast) ∧
      (node.specialForm? = some .closure → Tree.exposedParts node.children = []) ∧
      node.value?.any Value.holdsResource = false)
    ⟨fun holds => ⟨holds.1, holds.2.1, node.plain_iff.mpr holds.2.2⟩,
      fun holds => ⟨holds.unhidden, holds.enclosed, node.plain_iff.mp holds.plain⟩⟩

/-- Where the optimizer finds a template for a call, an evaluation that gets to the call finds the
procedure that was made of the definition which the template was recorded of. -/
theorem definition_in_force (apart : context.registry.KeepsNamesApart)
    (faithful : context.registry.FoldsFaithfully) (plain : context.registry.MakesNoResources)
    {tree : Tree} {store : Store} (unvisited : tree.Everywhere Tree.Unvisited)
    (orderly : tree.Everywhere Tree.Orderly) {name : String} {position : Position}
    {optimized : Bool} {facts : Facts} {children children' : List Tree} {template : Template}
    (walk : Relation.ReflTransGen (Leads ⟨context.registry, options⟩
      (some (Optimizer.pass ⟨context.registry, options⟩ depth)) context)
      (Point.start context tree store machine)
      ⟨.node, [⟨.call name, position, optimized, facts, children⟩], moment⟩)
    (visited : Optimizer.visitAll ⟨context.registry, options⟩
      (some (Optimizer.pass ⟨context.registry, options⟩ depth)) children moment.progress =
        .ok children' progress)
    (found : progress.scopes.find? name = some (.inlinable template)) :
    ∃ origin, moment.origins name = some origin ∧
      origin.recorded = some (.inlinable template) ∧
      moment.machine.env.procedure? name = some origin.procedure ∧
      origin.procedure.CreatedBy context origin.definition := by
  have follows : Optimizer.Follows ⟨context.registry, options⟩ .searching :=
    ⟨fun _ => apart, fun _ => rfl, fun _ => plain⟩
  have ready : tree.Everywhere (Tree.Ready .searching) := by
    apply (unvisited.and orderly).mono
    rintro node ⟨⟨fresh, bare⟩, unhidden, enclosed, plain⟩
    refine ⟨bare, fun _ => plain, fun settled => ?_, fun _ => unhidden, nofun, fun _ => rfl, nofun,
      fun closure _ => enclosed closure⟩
    exact absurd (fresh.symm.trans settled) Bool.false_ne_true
  have here := walk_sound rfl follows faithful walk (start_sound ready)
  have listed := visit_all_visited (fun child member => (visited_soundly follows child).here
    ((here.ready _ List.mem_cons_self).inside child member)) here.moment.fit visited
  have survives := listed.hides.survives here.moment.fit.some_frame
  have known : Rules.searching.known progress.scopes name = some template := by
    rw [Rules.known_on rfl]
    exact Scopes.known_eq_some.mpr found
  exact here.moment.back name template (survives name template known).1

def numberDefinition (number : Int64) : Tree :=
  .call SpecialForm.procedure.name
    [.literal (.string "_p") .unknown,
      .call SpecialForm.returning.name [.literal (.int number) .unknown] .unknown] .unknown

def numberCall : Tree := .call "_p" [] .unknown

theorem definition_in_force_of_number :
    ∃ (moment : Moment) (origin : Origin),
      Relation.ReflTransGen (Leads ⟨Context.standard.registry, {}⟩
        (some (Optimizer.pass ⟨Context.standard.registry, {}⟩ 999)) .standard)
        (Point.start .standard
          (.call SpecialForm.sequence.name [numberDefinition 1, numberCall] .unknown) {} ⟨{}, {}⟩)
        ⟨.node, [numberCall], moment⟩ ∧
      moment.origins "_p" = some origin ∧
      moment.machine.env.procedure? "_p" = some origin.procedure ∧
      origin.procedure.CreatedBy .standard origin.definition := by
  have reliable := Prelude.builtins_reliable
  have reached : ∃ moment children' progress template,
      Relation.ReflTransGen (Leads ⟨Context.standard.registry, {}⟩
        (some (Optimizer.pass ⟨Context.standard.registry, {}⟩ 999)) .standard)
        (Point.start .standard
          (.call SpecialForm.sequence.name [numberDefinition 1, numberCall] .unknown) {} ⟨{}, {}⟩)
        ⟨.node, [numberCall], moment⟩ ∧
      Optimizer.visitAll ⟨Context.standard.registry, {}⟩
        (some (Optimizer.pass ⟨Context.standard.registry, {}⟩ 999)) numberCall.children
          moment.progress = .ok children' progress ∧
      progress.scopes.find? "_p" = some (.inlinable template) := by
    refine ⟨_, _, _, _, .head (.sequence _ _ rfl rfl) (.head (.nextStatement rfl rfl)
      (.head .statement .refl)), rfl, rfl⟩
  rcases reached with ⟨moment, children', progress, template, walk, visited, found⟩
  have unvisited : (Tree.call SpecialForm.sequence.name [numberDefinition 1, numberCall]
    .unknown).Everywhere Tree.Unvisited := by decide
  have orderly : (Tree.call SpecialForm.sequence.name [numberDefinition 1, numberCall]
    .unknown).Everywhere Tree.Orderly := by decide
  rcases definition_in_force (Registry.of_list_apart reliable) (Registry.of_list_faithful reliable)
    (Registry.of_list_plain reliable) unvisited orderly walk visited found with
    ⟨origin, remembered, -, bound, created⟩
  exact ⟨moment, origin, walk, remembered, bound, created⟩

/-- What a parameter of a closure defines while it is evaluated stays defined, but the optimizer
forgets it after the closure. -/
theorem enclosed_definition_stays :
    ∃ moment children' progress template procedure origin,
      Relation.ReflTransGen (Leads ⟨Prelude.registry, {}⟩
        (some (Optimizer.pass ⟨Prelude.registry, {}⟩ 999)) .standard)
        (Point.start .standard (.call SpecialForm.sequence.name [numberDefinition 1,
          .call SpecialForm.closure.name [.call SpecialForm.assignment.name
            [.node (.variable "@a") [] .unknown, numberDefinition 2] .unknown,
              .node (.variable "@a") [] .unknown] .unknown, numberCall] .unknown) {} ⟨{}, {}⟩)
        ⟨.node, [numberCall], moment⟩ ∧
      Optimizer.visitAll ⟨Prelude.registry, {}⟩
        (some (Optimizer.pass ⟨Prelude.registry, {}⟩ 999)) numberCall.children moment.progress =
          .ok children' progress ∧
      progress.scopes.find? "_p" = some (.inlinable template) ∧
      moment.origins "_p" = some origin ∧ origin.definition = numberDefinition 1 ∧
      moment.machine.env.procedure? "_p" = some procedure ∧
      procedure.body =
        .call SpecialForm.returning.name [.literal (.int 2) .unknown] .unknown := by
  exact ⟨_, _, _, _, _, _, .head (.sequence _ _ rfl rfl) (.head (.nextStatement rfl rfl)
    (.head (.nextStatement rfl rfl) (.head .statement .refl))), rfl, rfl, rfl, rfl, rfl, rfl⟩

end Walks

end TreeScript
