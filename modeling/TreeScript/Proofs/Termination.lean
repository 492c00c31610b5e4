import Mathlib.Order.Filter.AtTopBot.Basic
import TreeScript.Proofs.Inlining
/-!
# Termination

Inside one body the evaluation of a node needs that of smaller nodes at the same depth of calls,
and entering the body of a procedure or a closure needs an evaluation one call deeper, of a tree
that may have any size. So what decreases from an evaluation to those nested in it is a pair: the
calls that are left, and the size of the tree.

To say so, the evaluation of a node is written once more with its recursion left open: `part` stands
for the evaluation of what is nested in the node, and `body` for that of bodies. Nothing there
counts calls. The module shows that the evaluator is the only way to close this recursion, that
finitely many levels of it suffice, and where the bodies are entered.
-/

namespace TreeScript

set_option autoImplicit false

namespace Tree

def size (tree : Tree) : Nat := tree.payloads.length

theorem size_le_children {child : Tree} {children : List Tree} (member : child ∈ children) :
    child.size ≤ (childPayloads children).length := by
  induction children with
  | nil => cases member
  | cons first rest induction =>
      rw [childPayloads, List.length_append]
      rcases List.mem_cons.mp member with rfl | later
      · exact Nat.le_add_right _ _
      · exact Nat.le_add_left_of_le (induction later)

theorem size_lt_of_child {tree child : Tree} (member : child ∈ tree.children) :
    child.size < tree.size := by
  rcases tree with ⟨payload, position, optimized, facts, children⟩
  exact Nat.lt_succ_of_le (size_le_children member)

theorem default_mem_children {node default : Tree} {name : String}
    (shape : node.parameter? = some (name, some default)) : default ∈ node.children := by
  rcases parameter_eq_some shape with ⟨_, _, _, _, -, none⟩ |
    ⟨_, _, _, target, expression, rest, rfl, -, same⟩
  · cases none
  · cases same
    simp

end Tree

section Nodes

variable (context : Context) (part body : Tree → Run Value)

def nodeBranches : List Tree → Run Value
  | [] => pure .void
  | [otherwise] => part otherwise
  | condition :: branch :: rest => do
      let decision ← part condition
      if decision.isTruthy then part branch else nodeBranches rest

def nodeParam (node : Tree) : Run Param :=
  match node.parameter? with
  | some (name, none) => pure ⟨name, .null⟩
  | some (name, some default) => part default >>= fun value => pure ⟨name, value⟩
  | none => throw (.typeError (.parameter node.text) node.position)

def nodeParams (children : List Tree) : Run (List Param) :=
  children.dropLast.mapM (nodeParam part)

def nodeSequence (children : List Tree) : Run Value :=
  children.foldlM (fun _ => part) .void

def nodeAssignment (position : Position) : List Tree → Run Value
  | ⟨.variable name, _, _, _, _⟩ :: expression :: _ => do
      let value ← part expression
      Run.modifyEnv (·.set name value)
      return value
  | node :: _ => throw (.typeError (.assignment node.payload.text) position)
  | [] => pure .void

def nodeDefinition (position : Position) : List Tree → Run Value
  | [] => pure .void
  | nameNode :: rest => do
      let name ← definedName position nameNode
      let params ← nodeParams part rest
      Run.modifyEnv (·.define ⟨name, params, bodyOf rest, position⟩)
      return .void

def nodeForm (position : Position) (children : List Tree) : SpecialForm → Run Value
  | .autoConcat | .sequence => nodeSequence part children
  | .conditional | .choice => nodeBranches part children
  | .procedure => nodeDefinition part position children
  | .assignment => nodeAssignment part position children
  | .returning => nodeSequence part children >>= fun value => throw (.returned value)
  | .closure => nodeParams part children >>= fun params =>
      captureClosure params (bodyOf children) position
  | .execution => children.mapM part >>= callValue context body position

def nodeCall (position : Position) (children : List Tree) (name : String) : Run Value :=
  fun machine =>
    match machine.env.procedure? name with
    | some procedure => (children.mapM part >>= callProcedure context body procedure) machine
    | none => .error (.undefinedProcedure name position) machine

/-- The evaluation of one node, given how what is nested in it is evaluated and how bodies are. -/
def evaluateNode : Tree → Run Value
  | ⟨.literal value, _, _, _, _⟩ => unlessInterrupted (pure value)
  | ⟨.variable name, position, _, _, _⟩ => unlessInterrupted (readVariable name position)
  | ⟨.call name, position, _, _, children⟩ => unlessInterrupted <|
      match SpecialForm.ofName? name with
      | some form =>
          if form.arity.accepts children.length then
            nodeForm context part body position children form
          else throw (.arityMismatch name form.arity children.length position)
      | none =>
          if Tree.isProcedureName name then nodeCall context part body position children name
          else
            match context.registry.find? name with
            | some builtin => children.mapM part >>= callBuiltin context builtin name position
            | none => throw (.unknownFunction name position)

end Nodes

section Evaluator

variable (context : Context) (run : Tree → Run Value)

theorem evaluate_all_eq (children : List Tree) :
    evaluateAll context run children = children.mapM (evaluate context run) := by
  induction children with
  | nil => rfl
  | cons child rest induction => rw [evaluateAll, List.mapM_cons, induction]

theorem evaluate_sequence_eq (children : List Tree) (last : Value) :
    evaluateSequence context run last children =
      children.foldlM (fun _ => evaluate context run) last := by
  induction children generalizing last with
  | nil => rfl
  | cons child rest induction =>
      simp only [evaluateSequence, List.foldlM_cons, induction]

theorem evaluate_branches_eq : (children : List Tree) →
    evaluateBranches context run children = nodeBranches (evaluate context run) children
  | [] => by simp only [evaluateBranches, nodeBranches]
  | [otherwise] => by simp only [evaluateBranches, nodeBranches]
  | condition :: branch :: rest => by
      simp only [evaluateBranches, nodeBranches, evaluate_branches_eq rest]

theorem evaluate_param_eq (node : Tree) :
    evaluateParam context run node = nodeParam (evaluate context run) node := by
  unfold nodeParam
  cases shape : node.parameter? with
  | none =>
      rw [evaluate_param_malformed context run shape]
      rfl
  | some parameter =>
      rcases parameter with ⟨name, default⟩
      rcases Tree.parameter_eq_some shape with ⟨_, _, _, _, rfl, rfl⟩ |
        ⟨_, _, _, ⟨payload, _, _, _, _⟩, expression, rest, rfl, named, rfl⟩
      · simp only [evaluateParam]
      · subst named
        exact evaluate_param_assigned ..

theorem evaluate_params_eq (children : List Tree) :
    evaluateParams context run children = nodeParams (evaluate context run) children := by
  unfold nodeParams
  match children with
  | [] => rfl
  | [_] => rfl
  | node :: next :: rest =>
      rw [List.dropLast_cons_cons, List.mapM_cons, evaluateParams, evaluate_param_eq,
        evaluate_params_eq (next :: rest)]
      rfl

theorem evaluate_assignment_eq (position : Position) (children : List Tree) :
    evaluateAssignment context run position children =
      nodeAssignment (evaluate context run) position children := by
  match children with
  | [] => rfl
  | [⟨payload, _, _, _, _⟩] => cases payload <;> rfl
  | ⟨payload, _, _, _, _⟩ :: expression :: rest => cases payload <;> rfl

theorem evaluate_definition_eq (position : Position) (children : List Tree) :
    evaluateDefinition context run position children =
      nodeDefinition (evaluate context run) position children := by
  cases children <;> simp only [evaluateDefinition, nodeDefinition, evaluate_params_eq]

theorem evaluate_form_eq (position : Position) (children : List Tree) (form : SpecialForm) :
    evaluateForm context run position children form =
      nodeForm context (evaluate context run) run position children form := by
  cases form <;>
    simp only [evaluateForm, nodeForm, nodeSequence, evaluate_sequence_eq, evaluate_branches_eq,
      evaluate_definition_eq, evaluate_assignment_eq, evaluate_params_eq, evaluate_all_eq]

theorem evaluate_eq_node (tree : Tree) :
    evaluate context run tree = evaluateNode context (evaluate context run) run tree := by
  rcases tree with ⟨payload, position, optimized, facts, children⟩
  cases payload with
  | literal value => exact evaluate_literal ..
  | «variable» name => exact evaluate_variable ..
  | call name =>
      simp only [evaluateNode]
      cases special : SpecialForm.ofName? name with
      | some form =>
          dsimp only
          cases accepted : form.arity.accepts children.length with
          | true => rw [evaluate_form _ _ _ _ _ _ special accepted, evaluate_form_eq, if_pos rfl]
          | false =>
              rw [evaluate_mismatch _ _ _ _ _ _ special accepted, if_neg Bool.false_ne_true]
      | none =>
          cases named : Tree.isProcedureName name with
          | true =>
              rw [evaluate_call _ _ _ _ _ _ special named]
              unfold evaluateCall
              rw [evaluate_all_eq]
              rfl
          | false =>
              cases found : context.registry.find? name with
              | some builtin =>
                  rw [evaluate_builtin _ _ _ _ _ _ special named found, evaluate_all_eq]
                  rfl
              | none => exact evaluate_unknown _ _ _ _ _ _ special named found

end Evaluator

/-- On machines at this depth the actions of the family eventually do what the given action does,
which ends at the same depth. If it runs out of calls then it has used them all up. -/
structure Follows {Index Result : Type} (near : Filter Index) (limit depth : Nat)
    (family : Index → Run Result) (action : Run Result) : Prop where
  agrees : ∀ machine : Machine, machine.env.depth = depth →
    ∀ᶠ index in near, family index machine = action machine
  keeps : ∀ machine : Machine, machine.env.depth = depth →
    (finalMachine (action machine)).env.depth = depth
  overflows : ∀ machine : Machine, machine.env.depth = depth → depth ≤ limit →
    ∀ reached allowed after, action machine = .error (.stackOverflow reached allowed) after →
      reached = limit + 1 ∧ allowed = limit

namespace Follows

variable {Index Item Result : Type} {near : Filter Index} {limit depth : Nat}

/-- What does the same at this depth follows the same action. -/
theorem congr {family family' : Index → Run Result} {action : Run Result}
    (follows : Follows near limit depth family action)
    (same : ∀ index machine, machine.env.depth = depth →
      family' index machine = family index machine) :
    Follows near limit depth family' action where
  agrees machine atDepth := by
    simp only [fun index => same index machine atDepth]
    exact follows.agrees machine atDepth
  keeps := follows.keeps
  overflows := follows.overflows

theorem steady {action : Run Result}
    (keeps : ∀ machine, (finalMachine (action machine)).env.depth = machine.env.depth)
    (calm : ∀ machine reached allowed after,
      action machine ≠ .error (.stackOverflow reached allowed) after) :
    Follows near limit depth (fun _ => action) action where
  agrees _ _ := Filter.Eventually.of_forall fun _ => rfl
  keeps machine atDepth := (keeps machine).trans atDepth
  overflows machine _ _ reached allowed after failed :=
    absurd failed (calm machine reached allowed after)

theorem pure (item : Item) : Follows near limit depth (fun _ => Pure.pure item) (Pure.pure item) :=
  steady (fun _ => rfl) fun _ _ _ _ failed => by cases failed

theorem throw {error : EvalError}
    (calm : ∀ reached allowed, error ≠ .stackOverflow reached allowed) :
    Follows near limit depth (fun _ => (MonadExcept.throw error : Run Result))
      (MonadExcept.throw error) :=
  steady (fun _ => rfl) fun _ reached allowed _ failed => by
    cases failed
    exact calm reached allowed rfl

theorem bind_of {family : Index → Run Item} {action : Run Item}
    {familyNext : Index → Item → Run Result} {next : Item → Run Result}
    (first : Follows near limit depth family action)
    (second : ∀ item before after, action before = .ok item after →
      Follows near limit depth (fun index => familyNext index item) (next item)) :
    Follows near limit depth (fun index => family index >>= familyNext index)
      (action >>= next) where
  agrees machine atDepth := by
    have kept := first.keeps machine atDepth
    have start := first.agrees machine atDepth
    simp only [bind_apply]
    cases outcome : action machine with
    | error failure between =>
        filter_upwards [start] with index same
        rw [same, outcome]
    | ok item between =>
        rw [outcome] at kept
        filter_upwards [start, (second item _ _ outcome).agrees between kept]
          with index same others
        rw [same, outcome]
        exact others
  keeps machine atDepth := by
    have kept := first.keeps machine atDepth
    rw [bind_apply]
    cases outcome : action machine with
    | error failure between =>
        rw [outcome] at kept
        exact kept
    | ok item between =>
        rw [outcome] at kept
        exact (second item _ _ outcome).keeps between kept
  overflows machine atDepth within reached allowed after failed := by
    have kept := first.keeps machine atDepth
    rw [bind_apply] at failed
    cases outcome : action machine with
    | error failure between =>
        rw [outcome] at failed
        cases failed
        exact first.overflows machine atDepth within reached allowed after outcome
    | ok item between =>
        rw [outcome] at kept failed
        exact (second item _ _ outcome).overflows between kept within reached allowed after failed

theorem bind {family : Index → Run Item} {action : Run Item}
    {familyNext : Index → Item → Run Result} {next : Item → Run Result}
    (first : Follows near limit depth family action)
    (second : ∀ item, Follows near limit depth (fun index => familyNext index item) (next item)) :
    Follows near limit depth (fun index => family index >>= familyNext index)
      (action >>= next) :=
  first.bind_of fun item _ _ _ => second item

/-- What an action does may depend on the machine that it starts from. -/
theorem locally {family : Index → Run Result} {action : Run Result}
    (here : ∀ machine : Machine, machine.env.depth = depth →
      ∃ (family' : Index → Run Result) (action' : Run Result),
        Follows near limit depth family' action' ∧
          (∀ index, family index machine = family' index machine) ∧
          action machine = action' machine) :
    Follows near limit depth family action where
  agrees machine atDepth := by
    rcases here machine atDepth with ⟨family', action', follows, sameFamily, same⟩
    simp only [sameFamily, same]
    exact follows.agrees machine atDepth
  keeps machine atDepth := by
    rcases here machine atDepth with ⟨family', action', follows, sameFamily, same⟩
    rw [same]
    exact follows.keeps machine atDepth
  overflows machine atDepth within reached allowed after failed := by
    rcases here machine atDepth with ⟨family', action', follows, sameFamily, same⟩
    rw [same] at failed
    exact follows.overflows machine atDepth within reached allowed after failed

theorem unless_interrupted {family : Index → Run Result} {action : Run Result}
    (follows : Follows near limit depth family action) :
    Follows near limit depth (fun index => unlessInterrupted (family index))
      (unlessInterrupted action) := by
  apply locally
  intro machine atDepth
  cases flag : machine.store.interrupted with
  | true =>
      have interrupted : Follows near limit depth
          (fun _ : Index => (MonadExcept.throw EvalError.interrupted : Run Result))
          (MonadExcept.throw EvalError.interrupted) := throw fun _ _ same => by cases same
      exact ⟨_, _, interrupted, fun _ => unless_interrupted_set _ flag,
        unless_interrupted_set _ flag⟩
  | false =>
      exact ⟨family, action, follows, fun _ => unless_interrupted_clear _ flag,
        unless_interrupted_clear _ flag⟩

theorem map_m {families : Index → Tree → Run Item} {action : Tree → Run Item}
    {children : List Tree}
    (follows : ∀ child ∈ children,
      Follows near limit depth (fun index => families index child) (action child)) :
    Follows near limit depth (fun index => children.mapM (families index))
      (children.mapM action) := by
  induction children with
  | nil => exact pure []
  | cons child rest induction =>
      simp only [List.mapM_cons]
      refine (follows child (by simp)).bind fun item => ?_
      exact (induction fun other member => follows other (by simp [member])).bind
        fun items => pure (item :: items)

theorem fold_m {families : Index → Tree → Run Item} {action : Tree → Run Item}
    {children : List Tree}
    (follows : ∀ child ∈ children,
      Follows near limit depth (fun index => families index child) (action child)) (last : Item) :
    Follows near limit depth (fun index => children.foldlM (fun _ => families index) last)
      (children.foldlM (fun _ => action) last) := by
  induction children generalizing last with
  | nil => exact pure last
  | cons child rest induction =>
      simp only [List.foldlM_cons]
      exact (follows child (by simp)).bind
        (induction fun other member => follows other (by simp [member]))

theorem modify_env {change : Environment → Environment}
    (keeps : ∀ env, (change env).depth = env.depth) :
    Follows near limit depth (fun _ => Run.modifyEnv change) (Run.modifyEnv change) :=
  steady (fun machine => keeps machine.env) fun _ _ _ _ failed => by cases failed

theorem copying {result : EStateM CopyError Store Result} :
    Follows near limit depth (fun _ => Run.copying result) (Run.copying result) := by
  refine steady (fun machine => congrArg Environment.depth (KeepsEnvironment.copying _ machine)) ?_
  intro machine reached allowed after failed
  unfold Run.copying at failed
  split at failed <;> cases failed

theorem read_variable {name : String} {position : Position} :
    Follows near limit depth (fun _ => readVariable name position)
      (readVariable name position) := by
  refine steady (fun machine => ?_) fun machine reached allowed after failed => ?_
  · unfold readVariable
    cases machine.env.read name position <;> rfl
  · have ordinary := reading_ordinary machine.env name position
    unfold readVariable at failed
    cases outcome : machine.env.read name position with
    | ok value =>
        rw [outcome] at failed
        cases failed
    | error error =>
        rw [outcome] at failed
        cases failed
        cases ordinary _ outcome

theorem defined_name {position : Position} {node : Tree} :
    Follows near limit depth (fun _ => definedName position node)
      (definedName position node) := by
  unfold definedName
  split
  · exact pure _
  · exact throw fun _ _ same => by cases same

theorem call_builtin {context : Context} {builtin : Builtin} {name : String}
    {position : Position} {arguments : List Value} :
    Follows near limit depth (fun _ => callBuiltin context builtin name position arguments)
      (callBuiltin context builtin name position arguments) := by
  refine steady
    (fun machine => congrArg Environment.depth (KeepsEnvironment.call_builtin _ _ _ _ _ machine)) ?_
  intro machine reached allowed after failed
  cases accepted : builtin.arity.accepts arguments.length with
  | true =>
      rw [call_builtin_accepted accepted] at failed
      split at failed <;> cases failed
  | false =>
      rw [call_builtin_refused accepted] at failed
      cases failed

theorem capture_closure {params : List Param} {body : Tree} {position : Position} :
    Follows near limit depth (fun _ => captureClosure params body position)
      (captureClosure params body position) := by
  unfold captureClosure
  apply locally
  intro machine atDepth
  exact ⟨_, _, copying.bind fun closure => pure (Value.closure closure), fun _ => rfl, rfl⟩

theorem enter_call {scope : Environment} (atDepth : scope.depth = depth) :
    Follows near limit depth (fun _ => Run.ofExcept (scope.enterCall limit))
      (Run.ofExcept (scope.enterCall limit)) where
  agrees _ _ := Filter.Eventually.of_forall fun _ => rfl
  keeps machine kept :=
    (congrArg Environment.depth (KeepsEnvironment.of_except _ machine)).trans kept
  overflows machine _ within reached allowed after failed := by
    unfold Environment.enterCall at failed
    split at failed
    · rename_i spent
      cases failed
      exact ⟨by omega, rfl⟩
    · cases failed

section Bodies

variable {context : Context} {bodies : Index → Tree → Run Value} {body : Tree → Run Value}

theorem run_body {scope : Environment} {tree : Tree} (atDepth : scope.depth = depth + 1)
    (within : depth + 1 ≤ limit)
    (deeper : Follows near limit (depth + 1) (fun index => bodies index tree) (body tree)) :
    Follows near limit depth (fun index => runBody (bodies index) scope tree)
      (runBody body scope tree) where
  agrees machine _ := by
    filter_upwards [deeper.agrees ⟨scope, machine.store⟩ atDepth] with index same
    unfold runBody
    rw [same]
  keeps machine kept :=
    (congrArg Environment.depth (KeepsEnvironment.run_body _ _ _ machine)).trans kept
  overflows machine _ _ reached allowed after failed := by
    unfold runBody at failed
    split at failed
    · cases failed
    · cases failed
    · rename_i error between outcome
      cases failed
      exact deeper.overflows _ atDepth within _ _ _ outcome

variable (deeper : depth + 1 ≤ context.maxDepth → ∀ tree,
  Follows near context.maxDepth (depth + 1) (fun index => bodies index tree) (body tree))

include deeper

theorem invoke {params : List Param} {tree : Tree} {arguments : List Value}
    {scope : Environment} (atDepth : scope.depth = depth) :
    Follows near context.maxDepth depth
      (fun index => TreeScript.invoke context (bodies index) params tree arguments scope)
      (TreeScript.invoke context body params tree arguments scope) := by
  unfold TreeScript.invoke
  apply (enter_call atDepth).bind_of
  intro entered before after allowed
  have entering : scope.depth < context.maxDepth ∧
      entered = { scope with depth := scope.depth + 1 } := by
    cases enters : scope.enterCall context.maxDepth with
    | error error =>
        rw [enters] at allowed
        cases allowed
    | ok entered' =>
        rw [enters] at allowed
        cases allowed
        exact Environment.enter_call_ok enters
  apply copying.bind_of
  intro bound before' after' binding
  have boundDepth : bound.depth = depth + 1 := by
    unfold Run.copying Store.copying at binding
    cases binds : entered.bindArguments params arguments before'.store.resources with
    | error error fresh =>
        rw [binds] at binding
        cases binding
    | ok bound' fresh =>
        rw [binds] at binding
        cases binding
        rw [Environment.bind_arguments_scope binds, entering.2, atDepth]
  have within : depth + 1 ≤ context.maxDepth := atDepth ▸ entering.1
  exact run_body boundDepth within (deeper within tree)

theorem call_procedure {procedure : Procedure} {arguments : List Value} :
    Follows near context.maxDepth depth
      (fun index => callProcedure context (bodies index) procedure arguments)
      (callProcedure context body procedure arguments) := by
  apply locally
  intro machine atDepth
  have entered : machine.env.procedureScope.depth = depth := atDepth
  exact ⟨_, _, invoke deeper entered, fun _ => rfl, rfl⟩

/-- A closure is entered from the depth of its caller. The depth that it captured is not used. -/
theorem call_closure {closure : Closure} {arguments : List Value} :
    Follows near context.maxDepth depth
      (fun index => callClosure context (bodies index) closure arguments depth)
      (callClosure context body closure arguments depth) := by
  apply locally
  intro machine atDepth
  exact ⟨_, _, copying.bind fun scope => invoke deeper rfl, fun _ => rfl, rfl⟩

theorem call_value {position : Position} {values : List Value} :
    Follows near context.maxDepth depth
      (fun index => callValue context (bodies index) position values)
      (callValue context body position values) := by
  unfold callValue
  cases values.getLast?.getD .void with
  | closure closure =>
      apply locally
      intro machine atDepth
      subst atDepth
      have entered : Follows near context.maxDepth machine.env.depth
          (fun index => callClosure context (bodies index) closure values.dropLast
            machine.env.depth)
          (callClosure context body closure values.dropLast machine.env.depth) :=
        call_closure deeper
      exact ⟨_, _, entered, fun _ => rfl, rfl⟩
  | _ => exact throw fun _ _ same => by cases same

end Bodies

section Nodes

variable {context : Context} {parts bodies : Index → Tree → Run Value}
  {part body : Tree → Run Value} {children : List Tree}

theorem node_branches : {children : List Tree} →
    (∀ child ∈ children,
      Follows near limit depth (fun index => parts index child) (part child)) →
    Follows near limit depth (fun index => nodeBranches (parts index) children)
      (nodeBranches part children)
  | [], _ => pure Value.void
  | [otherwise], inside => inside otherwise (by simp)
  | condition :: branch :: rest, inside => by
      simp only [nodeBranches]
      refine (inside condition (by simp)).bind fun decision => ?_
      cases decision.isTruthy with
      | true => exact inside branch (by simp)
      | false => exact node_branches fun child member => inside child (by simp [member])

variable (inside : ∀ child ∈ children, ∀ inner, inner.size ≤ child.size →
  Follows near limit depth (fun index => parts index inner) (part inner))

include inside

theorem node_params :
    Follows near limit depth (fun index => nodeParams (parts index) children)
      (nodeParams part children) := by
  unfold nodeParams
  apply map_m
  intro child before
  have member : child ∈ children := List.dropLast_subset _ before
  unfold nodeParam
  split
  · exact pure _
  · rename_i name default shape
    have smaller := Tree.size_lt_of_child (Tree.default_mem_children shape)
    exact (inside child member default smaller.le).bind fun value => pure _
  · exact throw fun _ _ same => by cases same

theorem node_sequence :
    Follows near limit depth (fun index => nodeSequence (parts index) children)
      (nodeSequence part children) :=
  fold_m (fun child member => inside child member child le_rfl) Value.void

theorem node_assignment {position : Position} :
    Follows near limit depth (fun index => nodeAssignment (parts index) position children)
      (nodeAssignment part position children) := by
  unfold nodeAssignment
  split
  · rename_i name _ _ _ _ expression rest
    refine (inside expression (by simp) expression le_rfl).bind fun value => ?_
    have kept : ∀ env : Environment, (env.set name value).depth = env.depth := fun _ => rfl
    exact (modify_env kept).bind fun _ => pure value
  · exact throw fun _ _ same => by cases same
  · exact pure Value.void

theorem node_definition {position : Position} :
    Follows near limit depth (fun index => nodeDefinition (parts index) position children)
      (nodeDefinition part position children) := by
  cases children with
  | nil => exact pure Value.void
  | cons nameNode rest =>
      refine defined_name.bind fun name => ?_
      refine (node_params fun child member => inside child (by simp [member])).bind
        fun params => ?_
      have kept : ∀ env : Environment,
          (env.define ⟨name, params, bodyOf rest, position⟩).depth = env.depth := fun _ => rfl
      exact (modify_env kept).bind fun _ => pure Value.void

end Nodes

/-- The step: the evaluation of a node follows if those nested in it do, of smaller trees at the
same depth and of any trees one call deeper within the limit. -/
theorem node {context : Context} {parts bodies : Index → Tree → Run Value}
    {part body : Tree → Run Value} {tree : Tree}
    (smaller : ∀ inner, inner.size < tree.size →
      Follows near context.maxDepth depth (fun index => parts index inner) (part inner))
    (deeper : depth + 1 ≤ context.maxDepth → ∀ inner,
      Follows near context.maxDepth (depth + 1) (fun index => bodies index inner) (body inner)) :
    Follows near context.maxDepth depth
      (fun index => evaluateNode context (parts index) (bodies index) tree)
      (evaluateNode context part body tree) := by
  rcases tree with ⟨payload, position, optimized, facts, children⟩
  have inside : ∀ child ∈ children, ∀ inner, inner.size ≤ child.size →
      Follows near context.maxDepth depth (fun index => parts index inner) (part inner) :=
    fun child member inner below =>
      smaller inner (Nat.lt_of_le_of_lt below (Tree.size_lt_of_child member))
  have arguments : Follows near context.maxDepth depth
      (fun index => children.mapM (parts index)) (children.mapM part) :=
    map_m fun child member => inside child member child le_rfl
  cases payload with
  | literal value => exact (pure value).unless_interrupted
  | «variable» name => exact read_variable.unless_interrupted
  | call name =>
      apply unless_interrupted
      cases SpecialForm.ofName? name with
      | some form =>
          dsimp only
          split
          · cases form with
            | autoConcat | sequence => exact node_sequence inside
            | conditional | choice =>
                exact node_branches fun child member => inside child member child le_rfl
            | procedure => exact node_definition inside
            | assignment => exact node_assignment inside
            | returning =>
                exact (node_sequence inside).bind fun value =>
                  throw fun _ _ same => by cases same
            | closure => exact (node_params inside).bind fun params => capture_closure
            | execution => exact arguments.bind fun values => call_value deeper
          · exact throw fun _ _ same => by cases same
      | none =>
          dsimp only
          split
          · apply locally
            intro machine atDepth
            unfold nodeCall
            cases machine.env.procedure? name with
            | some procedure =>
                exact ⟨_, _, arguments.bind fun values => call_procedure deeper, fun _ => rfl, rfl⟩
            | none =>
                have missing : Follows near context.maxDepth depth
                    (fun _ : Index => (MonadExcept.throw
                      (EvalError.undefinedProcedure name position) : Run Value))
                    (MonadExcept.throw (EvalError.undefinedProcedure name position)) :=
                  throw fun _ _ same => by cases same
                exact ⟨_, _, missing, fun _ => rfl, rfl⟩
          · split
            · exact arguments.bind fun values => call_builtin
            · exact throw fun _ _ same => by cases same

end Follows

section Evaluation

variable {Index : Type} {near : Filter Index} {context : Context} {depth : Nat}

/-- The evaluation of a tree follows if bodies do one call deeper, by induction on the tree. -/
theorem evaluate_follows {bodies : Index → Tree → Run Value} {body : Tree → Run Value}
    (deeper : depth + 1 ≤ context.maxDepth → ∀ inner,
      Follows near context.maxDepth (depth + 1) (fun index => bodies index inner) (body inner))
    (tree : Tree) :
    Follows near context.maxDepth depth (fun index => evaluate context (bodies index) tree)
      (evaluate context body tree) := by
  induction size : tree.size using Nat.strong_induction_on generalizing tree with
  | _ bound induction =>
      subst size
      simp only [evaluate_eq_node]
      refine Follows.node (fun inner smaller => ?_) deeper
      exact induction inner.size smaller inner rfl

/-- The bodies run with the calls that are left, by induction on their number. -/
theorem body_runner_follows {calls : Nat} (left : context.maxDepth - depth = calls)
    (tree : Tree) :
    Follows near context.maxDepth depth
      (fun _ => evaluate context (bodyRunner context calls) tree)
      (evaluate context (bodyRunner context calls) tree) := by
  induction calls generalizing depth tree with
  | zero => exact evaluate_follows (fun within => by omega) tree
  | succ calls induction =>
      exact evaluate_follows (fun _ inner => induction (by omega) inner) tree

/-- The evaluator follows itself: it keeps the depth, and runs out of calls at the limit only. -/
theorem eval_follows (tree : Tree) :
    Follows near context.maxDepth depth (fun _ => tree.eval context) (tree.eval context) := by
  apply Follows.locally
  intro machine atDepth
  subst atDepth
  exact ⟨_, _, body_runner_follows rfl tree, fun _ => rfl, rfl⟩

end Evaluation

section Recursion

variable (context : Context)

/-- The evaluator closes the recursion for bodies too. The calls that it counts are those that the
depth of the machine leaves. -/
theorem eval_eq_evaluate (tree : Tree) :
    tree.eval context = evaluate context (fun body => body.eval context) tree := by
  funext machine
  have follows : Follows (pure ()) context.maxDepth machine.env.depth
      (fun _ => evaluate context (bodyRunner context (context.maxDepth - machine.env.depth)) tree)
      (evaluate context (fun body => body.eval context) tree) := by
    refine evaluate_follows (fun within inner => ?_) tree
    apply Follows.locally
    intro entered atDepth
    refine ⟨_, _, eval_follows inner, fun _ => ?_, rfl⟩
    have left : context.maxDepth - machine.env.depth =
        (context.maxDepth - entered.env.depth) + 1 := by omega
    rw [left]
    rfl
  exact Filter.eventually_pure.mp (follows.agrees machine rfl)

theorem eval_eq_node (tree : Tree) :
    tree.eval context =
      evaluateNode context (fun part => part.eval context) (fun body => body.eval context)
        tree := by
  have same : evaluate context (fun body => body.eval context) =
      fun part => part.eval context := funext fun part => (eval_eq_evaluate context part).symm
  rw [eval_eq_evaluate, evaluate_eq_node, same]

/-- An evaluation is nested deeper than another if fewer calls are left, or as many and its tree
is smaller. -/
def Deeper (inner outer : Tree × Machine) : Prop :=
  Prod.Lex (· < ·) (· < ·)
    (context.maxDepth - inner.2.env.depth, inner.1.size)
    (context.maxDepth - outer.2.env.depth, outer.1.size)

/-- A number of levels and what stands below them, as the number grows. -/
abbrev manyLevels : Filter (Nat × (Tree → Run Value)) := Filter.comap Prod.fst Filter.atTop

theorem many_levels_iff {holds : Nat × (Tree → Run Value) → Prop} :
    (∀ᶠ unfolding in manyLevels, holds unfolding) ↔
      ∃ levels, ∀ more, levels ≤ more → ∀ bottom, holds (more, bottom) := by
  rw [Filter.eventually_comap, Filter.eventually_atTop]
  constructor
  · rintro ⟨levels, all⟩
    exact ⟨levels, fun more enough bottom => all more enough (more, bottom) rfl⟩
  · rintro ⟨levels, all⟩
    refine ⟨levels, fun more enough unfolding same => ?_⟩
    subst same
    exact all _ enough unfolding.2

/-- The evaluation of a node with a number of levels of the recursion unfolded. Whatever is nested
deeper is left to `bottom`. -/
def unfolded (bottom : Tree → Run Value) : Nat → Tree → Run Value
  | 0 => bottom
  | levels + 1 => evaluateNode context (unfolded bottom levels) (unfolded bottom levels)

/-- What a node comes to, given what the evaluations nested in it come to: those of smaller trees
at its own depth, and those of bodies one call deeper within the limit. -/
theorem eval_of_nested {part body : Tree → Run Value} {tree : Tree} {machine : Machine}
    (parts : ∀ inner between, inner.size < tree.size → between.env.depth = machine.env.depth →
      part inner between = inner.eval context between)
    (bodies : ∀ inner entered, entered.env.depth = machine.env.depth + 1 →
      entered.env.depth ≤ context.maxDepth → body inner entered = inner.eval context entered) :
    evaluateNode context part body tree machine = tree.eval context machine := by
  have follows : Follows (pure ()) context.maxDepth machine.env.depth
      (fun _ => evaluateNode context part body tree)
      (evaluateNode context (fun part => part.eval context) (fun body => body.eval context)
        tree) := by
    refine Follows.node (fun inner smaller => ?_) (fun within inner => ?_)
    · exact (eval_follows inner).congr fun _ between atDepth =>
        parts inner between smaller atDepth
    · exact (eval_follows inner).congr fun _ entered atDepth =>
        bodies inner entered atDepth (atDepth ▸ within)
  rw [eval_eq_node]
  exact Filter.eventually_pure.mp (follows.agrees machine rfl)

/-- Unfolding one level more changes nothing in the long run. -/
theorem unfolded_follows_next {depth : Nat} {tree : Tree}
    (next : Follows manyLevels context.maxDepth depth
      (fun unfolding => unfolded context unfolding.2 (unfolding.1 + 1) tree) (tree.eval context)) :
    Follows manyLevels context.maxDepth depth
      (fun unfolding => unfolded context unfolding.2 unfolding.1 tree) (tree.eval context) where
  agrees machine atDepth := by
    rcases many_levels_iff.mp (next.agrees machine atDepth) with ⟨levels, same⟩
    refine many_levels_iff.mpr ⟨levels + 1, fun more enough bottom => ?_⟩
    rcases Nat.exists_eq_add_of_lt enough with ⟨above, rfl⟩
    exact same (levels + above) (Nat.le_add_right _ _) bottom
  keeps := next.keeps
  overflows := next.overflows

/-- Every evaluation is finished after finitely many levels, by induction on the calls that are
left and, at one depth, on the size of the tree. -/
theorem unfolded_follows {depth : Nat} (tree : Tree) :
    Follows manyLevels context.maxDepth depth
      (fun unfolding => unfolded context unfolding.2 unfolding.1 tree) (tree.eval context) := by
  induction left : context.maxDepth - depth using Nat.strong_induction_on
    generalizing depth tree with
  | _ calls fewer =>
      induction size : tree.size using Nat.strong_induction_on generalizing tree with
      | _ nodes smaller =>
          subst left size
          apply unfolded_follows_next
          rw [eval_eq_node]
          refine Follows.node (fun inner below => ?_) (fun within inner => ?_)
          · exact smaller inner.size below inner rfl
          · exact fewer (context.maxDepth - (depth + 1)) (by omega) inner rfl

/-- Evaluation terminates, whatever the procedures and closures are that the machine holds.

The outcome of a node is settled by evaluations that are nested deeper: fewer calls are left, or as
many and the tree is smaller. So finitely many levels of the recursion suffice, whatever stands
below them. Bodies are entered one call deeper and within the limit. An evaluation that starts
within the limit runs out of calls only in the attempt to go one call beyond it. -/
theorem evaluation_terminates (tree : Tree) (machine : Machine) :
    (∀ self : Tree → Run Value,
      (∀ inner, Deeper context inner (tree, machine) →
        self inner.1 inner.2 = inner.1.eval context inner.2) →
      evaluateNode context self self tree machine = tree.eval context machine) ∧
    (∃ levels, ∀ more, levels ≤ more → ∀ bottom,
      unfolded context bottom more tree machine = tree.eval context machine) ∧
    (∀ body : Tree → Run Value,
      (∀ inner entered, entered.env.depth = machine.env.depth + 1 →
        entered.env.depth ≤ context.maxDepth → body inner entered = inner.eval context entered) →
      evaluate context body tree machine = tree.eval context machine) ∧
    (machine.env.depth ≤ context.maxDepth → ∀ reached allowed after,
      tree.eval context machine = .error (.stackOverflow reached allowed) after →
      reached = context.maxDepth + 1 ∧ allowed = context.maxDepth) := by
  refine ⟨fun self deeper => ?_, ?_, fun body bodies => ?_, fun within reached allowed after => ?_⟩
  · apply eval_of_nested
    · intro inner between smaller atDepth
      exact deeper (inner, between) (by
        unfold Deeper
        rw [atDepth]
        exact Prod.Lex.right _ smaller)
    · intro inner entered atDepth within
      have fewer : context.maxDepth - entered.env.depth <
          context.maxDepth - machine.env.depth := by omega
      exact deeper (inner, entered) (Prod.Lex.left _ _ fewer)
  · exact many_levels_iff.mp ((unfolded_follows context tree).agrees machine rfl)
  · have follows : Follows (pure ()) context.maxDepth machine.env.depth
        (fun _ => evaluate context body tree)
        (evaluate context (fun body => body.eval context) tree) := by
      refine evaluate_follows (fun within inner => ?_) tree
      exact (eval_follows inner).congr fun _ entered atDepth =>
        bodies inner entered atDepth (atDepth ▸ within)
    rw [eval_eq_evaluate]
    exact Filter.eventually_pure.mp (follows.agrees machine rfl)
  · have follows : Follows (pure ()) context.maxDepth machine.env.depth
        (fun _ => tree.eval context) (tree.eval context) := eval_follows tree
    exact follows.overflows machine rfl within reached allowed after

end Recursion

def selfApplication : Closure where
  identity := 0
  params := [⟨"@x", .null⟩]
  body := .call SpecialForm.execution.name
    [.node (.variable "@x") [] .unknown, .node (.variable "@x") [] .unknown] .unknown
  position := .unknown

def selfApplicationMachine : Machine where
  env := ({} : Environment).set "@f" (.closure selfApplication)
  store := { captured := #[{}] }

def selfCall : Tree :=
  .call SpecialForm.execution.name
    [.node (.variable "@f") [] .unknown, .node (.variable "@f") [] .unknown] .unknown

/-- The depth that a run has reached and the limit, if it ends for want of calls. -/
def overflow? : EStateM.Result EvalError Machine Value → Option (Nat × Nat)
  | .error (.stackOverflow reached allowed) _ => some (reached, allowed)
  | _ => none

theorem overflow_eq_some {outcome : EStateM.Result EvalError Machine Value} {reached allowed : Nat}
    (overflows : overflow? outcome = some (reached, allowed)) :
    ∃ after, outcome = .error (.stackOverflow reached allowed) after := by
  unfold overflow? at overflows
  split at overflows
  · cases overflows
    exact ⟨_, rfl⟩
  · cases overflows

theorem self_application_overflows :
    ∃ reached allowed after,
      selfCall.eval { registry := {}, maxDepth := 3 } selfApplicationMachine =
        .error (.stackOverflow reached allowed) after ∧ reached = 4 ∧ allowed = 3 := by
  have overflows : overflow?
      (selfCall.eval { registry := {}, maxDepth := 3 } selfApplicationMachine) = some (4, 3) := by
    decide +kernel
  rcases overflow_eq_some overflows with ⟨after, ended⟩
  have limited := (evaluation_terminates { registry := {}, maxDepth := 3 } selfCall
    selfApplicationMachine).2.2.2 (Nat.zero_le 3) 4 3 after ended
  exact ⟨4, 3, after, ended, limited⟩

end TreeScript
