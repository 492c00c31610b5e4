import TreeScript.Proofs.Chronology
/-!
# What an evaluation touches

A script changes the environment that it is evaluated in only through its own assignments and
definitions. Those inside of a body do not count, since a body runs in a scope of its own; the
arguments of a call and the defaults of parameters do, because they are evaluated where the call or
the definition stands. Names are only ever added behind those that are there. This holds however
the evaluation ends, so it is shown for every step of it and carried over by `Forward`.
-/

namespace TreeScript

set_option autoImplicit false

def SpecialForm.hasBody : SpecialForm → Bool
  | .procedure | .closure => true
  | _ => false

namespace Tree

/-- The children that are evaluated, if at all, in the environment of the node itself: all but the
body of a definition or of a closure. What stands below a literal or a variable is not evaluated. -/
def openChildren (tree : Tree) : List Tree :=
  match tree.payload with
  | .call name =>
      if (SpecialForm.ofName? name).any SpecialForm.hasBody then tree.children.dropLast
      else tree.children
  | _ => []

inductive Outer : Tree → Tree → Prop where
  | self (tree : Tree) : Outer tree tree
  | inside {tree child node : Tree} : child ∈ tree.openChildren → Outer child node →
      Outer tree node

def assigned? (node : Tree) : Option String :=
  if node.specialForm? = some .assignment then
    node.children.head?.bind fun target => target.payload.variableName?
  else none

end Tree

/-- Names that may be assigned, and names that may be defined. -/
structure Footprint where
  assigned : String → Prop
  defined : String → Prop

/-- The names that the nodes outside of bodies assign and define. -/
def Tree.footprint (tree : Tree) : Footprint where
  assigned name := ∃ node, tree.Outer node ∧ node.assigned? = some name
  defined name := ∃ node, tree.Outer node ∧ node.definition? = some name

/-- An environment afterwards. Its names begin with those of before, in the same order, and only
names of the footprint mean something new. -/
structure Environment.Extends (footprint : Footprint) (env after : Environment) : Prop where
  varNames : env.vars.names <+: after.vars.names
  procedureNames : env.procedures.names <+: after.procedures.names
  label : after.label = env.label
  command : after.command = env.command
  script : after.script = env.script
  sink : after.sink = env.sink
  depth : after.depth = env.depth
  values : ∀ name, ¬ footprint.assigned name → after.get? name = env.get? name
  definitions : ∀ name, ¬ footprint.defined name → after.procedure? name = env.procedure? name

theorem Bindings.names_before_put {Item : Type} (bindings : Bindings Item) (name : String)
    (item : Item) : bindings.names <+: (bindings.put name item).names := by
  rw [Bindings.names_put]
  split
  · exact List.prefix_rfl
  · exact List.prefix_append _ _

namespace Environment.Extends

variable {footprint : Footprint} {env between after : Environment}

theorem refl (footprint : Footprint) (env : Environment) : env.Extends footprint env :=
  ⟨List.prefix_rfl, List.prefix_rfl, rfl, rfl, rfl, rfl, rfl, fun _ _ => rfl, fun _ _ => rfl⟩

theorem trans (first : env.Extends footprint between) (later : between.Extends footprint after) :
    env.Extends footprint after where
  varNames := first.varNames.trans later.varNames
  procedureNames := first.procedureNames.trans later.procedureNames
  label := later.label.trans first.label
  command := later.command.trans first.command
  script := later.script.trans first.script
  sink := later.sink.trans first.sink
  depth := later.depth.trans first.depth
  values name outside := (later.values name outside).trans (first.values name outside)
  definitions name outside :=
    (later.definitions name outside).trans (first.definitions name outside)

theorem set {name : String} (allowed : footprint.assigned name) (env : Environment)
    (value : Value) : env.Extends footprint (env.set name value) :=
  { refl footprint env with
    varNames := env.vars.names_before_put name value
    values := fun other outside => by
      have differs : other ≠ name := by
        rintro rfl
        exact outside allowed
      rw [get_set, if_neg differs] }

theorem define {procedure : Procedure} (allowed : footprint.defined procedure.name)
    (env : Environment) : env.Extends footprint (env.define procedure) :=
  { refl footprint env with
    procedureNames := env.procedures.names_before_put procedure.name procedure
    definitions := fun other outside => by
      have differs : other ≠ procedure.name := by
        rintro rfl
        exact outside allowed
      exact (Bindings.find?_put _ _ _ _).trans (if_neg differs) }

end Environment.Extends

abbrev Touches {Result : Type} (footprint : Footprint) (action : Run Result) : Prop :=
  Forward (fun machine after : Machine => machine.env.Extends footprint after.env) action

namespace Touches

variable {footprint : Footprint} {Item Result : Type}

theorem of_keeps {action : Run Item} (keeps : KeepsEnvironment action) :
    Touches footprint action := by
  intro machine
  have kept := keeps machine
  cases outcome : action machine <;>
    · rw [outcome] at kept
      dsimp only [finalMachine] at kept ⊢
      rw [kept]
      exact .refl footprint _

theorem pure (item : Item) : Touches footprint (Pure.pure item : Run Item) :=
  fun machine => .refl footprint machine.env

theorem throw (error : EvalError) : Touches footprint (MonadExcept.throw error : Run Item) :=
  fun machine => .refl footprint machine.env

theorem bind {action : Run Item} {next : Item → Run Result} (first : Touches footprint action)
    (others : ∀ item, Touches footprint (next item)) : Touches footprint (action >>= next) := by
  refine Forward.bind ?_ first others
  exact fun _ _ _ => .trans

theorem bind_keeps {action : Run Item} {next : Item → Run Result}
    (first : Touches footprint action) (keeps : ∀ item, KeepsEnvironment (next item)) :
    Touches footprint (action >>= next) :=
  first.bind fun item => of_keeps (keeps item)

theorem unless_interrupted {action : Run Item} (touches : Touches footprint action) :
    Touches footprint (unlessInterrupted action) := by
  intro machine
  cases flag : machine.store.interrupted with
  | true =>
      rw [unless_interrupted_set _ flag]
      exact .refl footprint machine.env
  | false =>
      rw [unless_interrupted_clear _ flag]
      exact touches machine

theorem modify_env {change : Environment → Environment}
    (extends' : ∀ env : Environment, env.Extends footprint (change env)) :
    Touches footprint (Run.modifyEnv change) :=
  fun machine => extends' machine.env

theorem final {action : Run Item} (touches : Touches footprint action) (machine : Machine) :
    machine.env.Extends footprint (finalMachine (action machine)).env := by
  have moved := touches machine
  cases outcome : action machine <;>
    · rw [outcome] at moved
      exact moved

end Touches

namespace Tree

def StaysIn (footprint : Footprint) (tree : Tree) : Prop :=
  ∀ node, tree.Outer node →
    (∀ name, node.assigned? = some name → footprint.assigned name) ∧
      ∀ name, node.definition? = some name → footprint.defined name

theorem stays_in_footprint (tree : Tree) : tree.StaysIn tree.footprint :=
  fun node outer => ⟨fun _ named => ⟨node, outer, named⟩, fun _ named => ⟨node, outer, named⟩⟩

variable {footprint : Footprint} {tree : Tree}

theorem StaysIn.child (stays : tree.StaysIn footprint) {child : Tree}
    (within : child ∈ tree.openChildren) : child.StaysIn footprint :=
  fun node outer => stays node (.inside within outer)

variable {name : String} {position : Position} {optimized : Bool} {facts : Facts}
  {children : List Tree}

theorem open_children_call (plain : (SpecialForm.ofName? name).any SpecialForm.hasBody = false) :
    openChildren ⟨.call name, position, optimized, facts, children⟩ = children := by
  simp [openChildren, plain]

theorem open_children_bodied {form : SpecialForm} (special : SpecialForm.ofName? name = some form)
    (bodied : form.hasBody = true) :
    openChildren ⟨.call name, position, optimized, facts, children⟩ = children.dropLast := by
  simp [openChildren, special, bodied]

theorem exposed_parts_inside {parts : List Tree} {part : Tree} {defined : String}
    (within : part ∈ parts.dropLast) (exposes : defined ∈ part.exposed) :
    defined ∈ exposedParts parts := by
  induction parts with
  | nil => cases within
  | cons first rest induction =>
      cases rest with
      | nil => cases within
      | cons next others =>
          rw [List.dropLast_cons_cons, List.mem_cons] at within
          rw [exposedParts, List.mem_append]
          rcases within with rfl | later
          · exact Or.inl exposes
          · exact Or.inr (induction later)

theorem exposed_inside {child : Tree} {defined : String} (within : child ∈ tree.openChildren)
    (exposes : defined ∈ child.exposed) : defined ∈ tree.exposed := by
  rcases tree with ⟨payload, position, optimized, facts, children⟩
  cases payload with
  | literal | «variable» => cases within
  | call name =>
      cases special : SpecialForm.ofName? name with
      | none =>
          rw [open_children_call (by rw [special]; rfl)] at within
          rw [exposed, special]
          exact mem_exposed_all.mpr ⟨child, within, exposes⟩
      | some form =>
          cases bodied : form.hasBody with
          | true =>
              rw [open_children_bodied special bodied] at within
              have parts := exposed_parts_inside within exposes
              rw [exposed, special]
              cases form with
              | procedure => exact List.mem_append_right _ parts
              | closure => exact parts
              | _ => cases bodied
          | false =>
              rw [open_children_call (by rw [special]; exact bodied)] at within
              have all := mem_exposed_all.mpr ⟨child, within, exposes⟩
              rw [exposed, special]
              cases form with
              | procedure | closure => cases bodied
              | _ => exact all

theorem exposed_of_footprint {defined : String} (named : tree.footprint.defined defined) :
    defined ∈ tree.exposed := by
  obtain ⟨node, outer, named⟩ := named
  induction outer with
  | inside within _ induction => exact exposed_inside within (induction named)
  | self tree =>
      rcases tree with ⟨payload, position, optimized, facts, children⟩
      unfold definition? at named
      split at named
      · rename_i special
        cases payload with
        | call name =>
            rw [exposed, show SpecialForm.ofName? name = some .procedure from special]
            exact List.mem_append_left _ (Option.mem_toList.mpr named)
        | literal | «variable» => cases special
      · cases named

theorem StaysIn.target {target : Tree} {rest : List Tree} {assigned : String}
    (special : SpecialForm.ofName? name = some .assignment)
    (stays : StaysIn footprint ⟨.call name, position, optimized, facts, target :: rest⟩)
    (named : target.payload = .variable assigned) : footprint.assigned assigned := by
  refine (stays _ (.self _)).1 assigned ?_
  have isAssignment : specialForm? ⟨.call name, position, optimized, facts, target :: rest⟩ =
      some .assignment := special
  rw [assigned?, if_pos isAssignment, List.head?_cons, Option.bind_some, named]
  rfl

theorem StaysIn.definition {nameNode : Tree} {rest : List Tree} {defined : String}
    (special : SpecialForm.ofName? name = some .procedure)
    (stays : StaysIn footprint ⟨.call name, position, optimized, facts, nameNode :: rest⟩)
    (named : nameNode.procedureName? = some defined) : footprint.defined defined := by
  refine (stays _ (.self _)).2 defined ?_
  have isDefinition : specialForm? ⟨.call name, position, optimized, facts, nameNode :: rest⟩ =
      some .procedure := special
  rw [definition?, if_pos isDefinition, List.head?_cons, Option.bind_some, named]

end Tree

section Evaluation

variable {context : Context} {run : Tree → Run Value} {footprint : Footprint} {nodes : List Tree}

theorem evaluate_all_touches
    (each : ∀ node ∈ nodes, Touches footprint (evaluate context run node)) :
    Touches footprint (evaluateAll context run nodes) := by
  induction nodes with
  | nil =>
      rw [evaluateAll]
      exact .pure []
  | cons node rest induction =>
      rw [List.forall_mem_cons] at each
      rw [evaluateAll]
      exact each.1.bind fun value => (induction each.2).bind fun values => .pure _

theorem evaluate_sequence_touches
    (each : ∀ node ∈ nodes, Touches footprint (evaluate context run node)) (last : Value) :
    Touches footprint (evaluateSequence context run last nodes) := by
  induction nodes generalizing last with
  | nil =>
      rw [evaluateSequence]
      exact .pure last
  | cons node rest induction =>
      rw [List.forall_mem_cons] at each
      rw [evaluateSequence]
      exact each.1.bind fun value => induction each.2 value

theorem evaluate_branches_touch : (nodes : List Tree) →
    (∀ node ∈ nodes, Touches footprint (evaluate context run node)) →
    Touches footprint (evaluateBranches context run nodes)
  | [], _ => by
      rw [evaluateBranches]
      exact .pure _
  | [otherwise], each => by
      rw [evaluateBranches]
      exact each otherwise List.mem_cons_self
  | condition :: branch :: rest, each => by
      rw [List.forall_mem_cons, List.forall_mem_cons] at each
      rw [evaluateBranches]
      refine each.1.bind fun decision => ?_
      split
      · exact each.2.1
      · exact evaluate_branches_touch rest each.2.2

def Tree.Touching (context : Context) (run : Tree → Run Value) (footprint : Footprint)
    (node : Tree) : Prop :=
  node.StaysIn footprint → Touches footprint (evaluate context run node)

/-- The target of a parameter with a default is no variable of the environment, but its default is
evaluated there. -/
theorem evaluate_param_touches {param : Tree} (stays : param.StaysIn footprint)
    (each : ∀ child ∈ param.children, child.Touching context run footprint) :
    Touches footprint (evaluateParam context run param) := by
  cases shape : param.parameter? with
  | none =>
      rw [evaluate_param_malformed _ _ shape]
      exact .throw _
  | some written =>
      obtain ⟨name, default⟩ := written
      obtain ⟨position, optimized, facts, children, rfl, rfl⟩ |
        ⟨position, optimized, facts, target, expression, rest, rfl, named, rfl⟩ :=
        Tree.parameter_eq_some shape
      · rw [evaluateParam]
        exact .pure _
      · have within : expression ∈ Tree.openChildren ⟨.call SpecialForm.assignment.name, position,
            optimized, facts, target :: expression :: rest⟩ := by
          rw [Tree.open_children_call (by rw [SpecialForm.ofName?_name]; rfl)]
          simp
        have touches := each expression (by simp) (stays.child within)
        rcases target with ⟨payload, position', optimized', facts', children'⟩
        subst named
        rw [evaluate_param_assigned]
        exact touches.bind fun value => .pure _

theorem evaluate_params_touch : (parts : List Tree) →
    (∀ part ∈ parts, part.Everywhere (Tree.Touching context run footprint)) →
    (∀ param ∈ parts.dropLast, param.StaysIn footprint) →
    Touches footprint (evaluateParams context run parts)
  | [], _, _ | [_], _, _ => by
      rw [evaluateParams]
      exact .pure []
  | param :: next :: rest, each, stay => by
      rw [List.forall_mem_cons] at each
      rw [List.dropLast_cons_cons, List.forall_mem_cons] at stay
      rw [evaluateParams]
      have first := evaluate_param_touches stay.1 fun child member =>
        (each.1.inside child member).here
      exact first.bind fun made =>
        (evaluate_params_touch (next :: rest) each.2 stay.2).bind fun others => .pure _

theorem evaluate_assignment_touches {position : Position} {children : List Tree}
    (each : ∀ node ∈ children, Touches footprint (evaluate context run node))
    (allowed : ∀ target rest name, children = target :: rest → target.payload = .variable name →
      footprint.assigned name) :
    Touches footprint (evaluateAssignment context run position children) := by
  rw [evaluateAssignment.eq_def]
  split
  · rename_i name place settled noted below expression rest
    have assigned := allowed _ _ name rfl rfl
    exact (each expression (by simp)).bind fun value =>
      (Touches.modify_env fun env => .set assigned env value).bind fun _ => .pure _
  · exact .throw _
  · exact .pure _

theorem evaluate_definition_touches {position : Position} {nameNode : Tree} {rest : List Tree}
    (params : Touches footprint (evaluateParams context run rest))
    (allowed : ∀ name, nameNode.procedureName? = some name → footprint.defined name) :
    Touches footprint (evaluateDefinition context run position (nameNode :: rest)) := by
  rw [evaluateDefinition, definedName]
  cases given : nameNode.procedureName?.filter Tree.isProcedureName with
  | none => exact fun machine => .refl footprint machine.env
  | some name =>
      have defined := allowed name (Option.filter_eq_some_iff.mp given).1
      rw [pure_bind]
      exact params.bind fun made =>
        (Touches.modify_env fun env => .define defined env).bind fun _ => .pure _

variable {name : String} {position : Position} {optimized : Bool} {facts : Facts}
  {children : List Tree}

/-- One case for each special form. Only in an assignment and in a definition does the form itself
touch the environment. -/
theorem evaluate_form_touches {form : SpecialForm}
    (special : SpecialForm.ofName? name = some form)
    (each : ∀ child ∈ children, child.Everywhere (Tree.Touching context run footprint))
    (stays : Tree.StaysIn footprint ⟨.call name, position, optimized, facts, children⟩) :
    Touches footprint (evaluateForm context run position children form) := by
  have below (plain : form.hasBody = false) :
      ∀ child ∈ children, Touches footprint (evaluate context run child) := by
    intro child member
    refine (each child member).here (stays.child ?_)
    rwa [Tree.open_children_call (by rw [special]; exact plain)]
  have params (bodied : form.hasBody = true) :
      ∀ param ∈ children.dropLast, param.StaysIn footprint := by
    intro param member
    refine stays.child ?_
    rwa [Tree.open_children_bodied special bodied]
  cases form with
  | autoConcat | sequence => exact evaluate_sequence_touches (below rfl) .void
  | conditional | choice => exact evaluate_branches_touch children (below rfl)
  | assignment =>
      refine evaluate_assignment_touches (below rfl) ?_
      rintro target rest assigned rfl named
      exact stays.target special named
  | returning =>
      exact (evaluate_sequence_touches (below rfl) .void).bind fun value => .throw _
  | execution =>
      exact (evaluate_all_touches (below rfl)).bind_keeps fun values => .call_value _ _ _ _
  | closure =>
      exact (evaluate_params_touch children each (params rfl)).bind_keeps fun made =>
        .capture_closure _ _ _
  | procedure =>
      cases children with
      | nil =>
          rw [evaluateForm, evaluateDefinition]
          exact .pure _
      | cons nameNode rest =>
          have among : ∀ param ∈ rest.dropLast, param ∈ (nameNode :: rest).dropLast := by
            cases rest with
            | nil => exact List.forall_mem_nil _
            | cons next others => exact fun param member => List.mem_cons_of_mem _ member
          rw [List.forall_mem_cons] at each
          exact evaluate_definition_touches (evaluate_params_touch rest each.2 fun param member =>
            params rfl param (among param member)) fun defined => stays.definition special

/-- Evaluating a node touches no more than the names that the nodes outside of bodies assign and
define, whether it succeeds or fails, and whatever the bodies do that it runs. -/
theorem evaluate_touches (context : Context) (run : Tree → Run Value) (footprint : Footprint)
    (tree : Tree) : tree.Everywhere (Tree.Touching context run footprint) := by
  apply Tree.Everywhere.intro
  intro payload position optimized facts children induction stays
  cases payload with
  | literal value =>
      rw [evaluate_literal]
      exact (Touches.pure value).unless_interrupted
  | «variable» read =>
      rw [evaluate_variable]
      refine Touches.unless_interrupted fun machine => ?_
      unfold readVariable Run.ofExcept
      cases machine.env.read read position <;> exact .refl footprint machine.env
  | call name =>
      cases special : SpecialForm.ofName? name with
      | some form =>
          cases accepted : form.arity.accepts children.length with
          | true =>
              rw [evaluate_form _ _ _ _ _ _ special accepted]
              exact (evaluate_form_touches special induction stays).unless_interrupted
          | false =>
              rw [evaluate_mismatch _ _ _ _ _ _ special accepted]
              exact (Touches.throw _).unless_interrupted
      | none =>
          have arguments : Touches footprint (evaluateAll context run children) :=
            evaluate_all_touches fun child member => (induction child member).here
              (stays.child (by rwa [Tree.open_children_call (by rw [special]; rfl)]))
          cases named : Tree.isProcedureName name with
          | true =>
              rw [evaluate_call _ _ _ _ _ _ special named]
              refine Touches.unless_interrupted fun machine => ?_
              cases found : machine.env.procedure? name with
              | none =>
                  rw [evaluate_call_missing _ _ _ _ found]
                  exact .refl footprint machine.env
              | some procedure =>
                  rw [evaluate_call_found _ _ _ _ found]
                  exact arguments.bind_keeps (fun values => .call_procedure _ _ _ _) machine
          | false =>
              cases found : context.registry.find? name with
              | some builtin =>
                  rw [evaluate_builtin _ _ _ _ _ _ special named found]
                  exact (arguments.bind_keeps fun values =>
                    .call_builtin _ _ _ _ _).unless_interrupted
              | none =>
                  rw [evaluate_unknown _ _ _ _ _ _ special named found]
                  exact (Touches.throw _).unless_interrupted

end Evaluation

/-- An evaluation keeps the names of its environment in their places, whichever way it ends, and
touches nothing but the variables that assignments outside of bodies name and the procedures that
definitions outside of bodies name. Calling a procedure, making a closure and invoking one bind
nothing at all in the environment around them. -/
theorem evaluation_touches_its_footprint (context : Context) (tree : Tree) (machine : Machine) :
    machine.env.Extends tree.footprint (finalMachine (tree.eval context machine)).env ∧
    (∀ run procedure arguments, KeepsEnvironment (callProcedure context run procedure arguments)) ∧
    (∀ params body position, KeepsEnvironment (captureClosure params body position)) ∧
    ∀ run closure arguments depth,
      KeepsEnvironment (callClosure context run closure arguments depth) := by
  have touches := (evaluate_touches context (bodyRunner context
    (context.maxDepth - machine.env.depth)) tree.footprint tree).here tree.stays_in_footprint
  rw [eval_apply]
  exact ⟨touches.final machine, fun _ _ _ => .call_procedure _ _ _ _,
    fun _ _ _ => .capture_closure _ _ _, fun _ _ _ _ => .call_closure _ _ _ _ _⟩

end TreeScript
