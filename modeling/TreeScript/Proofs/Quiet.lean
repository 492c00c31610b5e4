import TreeScript.Proofs.Evaluation
import TreeScript.Optimize.Template
/-!
# Trees without side effects

A tree that only calls pure functions and transparent special forms has a value that depends on
nothing but the variables that it reads. `denote` is that value, and evaluation on an uninterrupted
machine comes to it without changing the machine.

What is assumed of the registry is what its host promises: a foldable call depends on its arguments
alone, and no pure function has a name that means something else.
-/

namespace TreeScript

set_option autoImplicit false

namespace Registry

/-- No pure function is hidden by a special form or by the procedures of scripts. -/
def KeepsNamesApart (registry : Registry) : Prop :=
  ∀ name, registry.isPure name = true →
    SpecialForm.ofName? name = none ∧ Tree.isProcedureName name = false

/-- What a pure function gives back depends on its arguments alone, and a call of it has no
effect. -/
def ComputesPurely (registry : Registry) : Prop :=
  ∀ name builtin values, registry.find? name = some builtin → builtin.isPure = true →
    ∃ result, ∀ position env store,
      builtin.run ⟨position, env, registry.catalogue⟩ values store =
        Action.ofExcept result store

/-- What comes out of a call that may be folded depends on its arguments alone, and the call has
no effect. -/
def FoldsFaithfully (registry : Registry) : Prop :=
  ∀ name builtin nodes, registry.find? name = some builtin → nodes.all Tree.isConstant = true →
    builtin.isFoldable nodes = true →
      ∃ result, ∀ position env store,
        builtin.run ⟨position, env, registry.catalogue⟩ (nodes.filterMap Tree.value?) store =
          Action.ofExcept result store

theorem is_pure_iff (registry : Registry) (name : String) :
    registry.isPure name = true ↔
      ∃ builtin, registry.find? name = some builtin ∧ builtin.isPure = true := by
  simp [isPure, Option.any_eq_true]

/-- A pure function may be folded on any values, so it is faithful on all of them. -/
theorem FoldsFaithfully.computes_purely {registry : Registry}
    (faithful : registry.FoldsFaithfully) : registry.ComputesPurely := by
  intro name builtin values found isPure
  let nodes := values.map fun value => Tree.literal value .unknown
  have constant : nodes.all Tree.isConstant = true := by
    simp [nodes, Tree.literal, Tree.node, Tree.isConstant, Payload.isConstant]
  have foldable : builtin.isFoldable nodes = true := by simp [Builtin.isFoldable, isPure]
  have read : nodes.filterMap Tree.value? = values := by
    simp [nodes, List.filterMap_map, Function.comp_def, Tree.literal, Tree.node, Tree.value?,
      Payload.value?]
  have result := faithful name builtin nodes found constant foldable
  rw [read] at result
  exact result

def result (registry : Registry) (name : String) (position : Position) (values : List Value) :
    Except EvalError Value :=
  match registry.find? name with
  | some builtin =>
      if builtin.arity.accepts values.length then
        match builtin.run ⟨.unknown, none, registry.catalogue⟩ values {} with
        | .ok value _ => .ok value
        | .error fault _ => .error (.builtin name fault position)
      else .error (.arityMismatch name builtin.arity values.length position)
  | none => .error (.unknownFunction name position)

end Registry

theorem call_builtin_pure {context : Context} (faithful : context.registry.ComputesPurely)
    {name : String} {builtin : Builtin} (found : context.registry.find? name = some builtin)
    (isPure : builtin.isPure = true) (position : Position) (values : List Value)
    (machine : Machine) :
    callBuiltin context builtin name position values machine =
      Run.ofExcept (context.registry.result name position values) machine := by
  rcases faithful name builtin values found isPure with ⟨outcome, same⟩
  cases accepted : builtin.arity.accepts values.length with
  | true =>
      rw [call_builtin_accepted accepted, same]
      simp only [Registry.result, found, accepted, same, if_true]
      cases outcome <;> rfl
  | false =>
      rw [call_builtin_refused accepted]
      simp [Registry.result, found, accepted, Run.ofExcept]

namespace EvalError

/-- An error that ends the script: no return on its way out, and not for want of calls. -/
def isOrdinary : EvalError → Bool
  | returned _ | stackOverflow _ _ => false
  | _ => true

end EvalError

namespace Tree

/-- What holds of every node of a tree, that is of every subtree. -/
inductive Everywhere (holds : Tree → Prop) : Tree → Prop where
  | node {tree : Tree} : holds tree → (∀ child ∈ tree.children, Everywhere holds child) →
      Everywhere holds tree

namespace Everywhere

variable {holds holds' : Tree → Prop} {tree : Tree}

theorem here (all : tree.Everywhere holds) : holds tree := by
  cases all with
  | node here below => exact here

theorem inside (all : tree.Everywhere holds) :
    ∀ child ∈ tree.children, child.Everywhere holds := by
  cases all with
  | node here below => exact below

theorem mono (all : tree.Everywhere holds) (weaker : ∀ node, holds node → holds' node) :
    tree.Everywhere holds' := by
  induction all with
  | node here _ induction => exact .node (weaker _ here) induction

theorem and (all : tree.Everywhere holds) (all' : tree.Everywhere holds') :
    tree.Everywhere fun node => holds node ∧ holds' node := by
  induction all with
  | node here _ induction =>
      exact .node ⟨here, all'.here⟩ fun child member =>
        induction child member (all'.inside child member)

/-- What holds of a node whenever it holds everywhere below holds everywhere. -/
theorem intro (step : ∀ payload position optimized facts children,
    (∀ child ∈ children, Everywhere holds child) →
      holds ⟨payload, position, optimized, facts, children⟩) (tree : Tree) :
    tree.Everywhere holds := by
  induction tree using Tree.induction with
  | node payload position optimized facts children induction =>
      exact .node (step payload position optimized facts children induction) induction

end Everywhere

mutual

def decideEverywhere (holds : Tree → Prop) [DecidablePred holds] :
    (tree : Tree) → Decidable (tree.Everywhere holds)
  | ⟨payload, position, optimized, facts, children⟩ =>
      if here : holds ⟨payload, position, optimized, facts, children⟩ then
        match decideAll holds children with
        | isTrue below => isTrue (.node here below)
        | isFalse fails => isFalse fun all => fails all.inside
      else isFalse fun all => here all.here

def decideAll (holds : Tree → Prop) [DecidablePred holds] :
    (trees : List Tree) → Decidable (∀ tree ∈ trees, tree.Everywhere holds)
  | [] => isTrue nofun
  | tree :: rest =>
      match decideEverywhere holds tree, decideAll holds rest with
      | isTrue here, isTrue below => isTrue (List.forall_mem_cons.mpr ⟨here, below⟩)
      | isFalse fails, _ => isFalse fun all => fails (all tree List.mem_cons_self)
      | _, isFalse fails => isFalse fun all =>
          fails fun other member => all other (List.mem_cons_of_mem _ member)

end

instance (holds : Tree → Prop) [DecidablePred holds] (tree : Tree) :
    Decidable (tree.Everywhere holds) := decideEverywhere holds tree

def BareLeaf (tree : Tree) : Prop := tree.functionName? = none → tree.children = []

instance : DecidablePred BareLeaf := fun tree =>
  decidable_of_iff (tree.functionName? = none → tree.children.isEmpty = true)
    (imp_congr_right fun _ => List.isEmpty_iff)

abbrev Reading := String → Position → Except EvalError Value

mutual

/-- The value of a tree without side effects. -/
def denote (registry : Registry) (read : Reading) : Tree → Except EvalError Value
  | ⟨.literal value, _, _, _, _⟩ => .ok value
  | ⟨.variable name, position, _, _, _⟩ => read name position
  | ⟨.call name, position, _, _, children⟩ =>
      match SpecialForm.ofName? name with
      | some form =>
          if form.arity.accepts children.length then
            if form.isSequence then denoteSequence registry read .void children
            else denoteBranches registry read children
          else .error (.arityMismatch name form.arity children.length position)
      | none =>
          match denoteAll registry read children with
          | .ok values => registry.result name position values
          | .error error => .error error

def denoteAll (registry : Registry) (read : Reading) :
    List Tree → Except EvalError (List Value)
  | [] => .ok []
  | node :: rest =>
      match denote registry read node with
      | .error error => .error error
      | .ok value =>
          match denoteAll registry read rest with
          | .error error => .error error
          | .ok values => .ok (value :: values)

def denoteSequence (registry : Registry) (read : Reading) (last : Value) :
    List Tree → Except EvalError Value
  | [] => .ok last
  | statement :: rest =>
      match denote registry read statement with
      | .error error => .error error
      | .ok value => denoteSequence registry read value rest

def denoteBranches (registry : Registry) (read : Reading) : List Tree → Except EvalError Value
  | [] => .ok .void
  | [otherwise] => denote registry read otherwise
  | condition :: branch :: rest =>
      match denote registry read condition with
      | .error error => .error error
      | .ok decision =>
          if decision.isTruthy then denote registry read branch
          else denoteBranches registry read rest

end

theorem mem_names {kind : FactKind} {tree : Tree} {name : String} :
    name ∈ tree.names kind ↔ ∃ payload ∈ tree.payloads, payload.nameOf? kind = some name := by
  rw [names, List.mem_eraseDups, List.mem_filterMap]

theorem names_child {kind : FactKind} {payload : Payload} {position : Position} {optimized : Bool}
    {facts : Facts} {children : List Tree} {child : Tree} {name : String}
    (member : child ∈ children) (mentioned : name ∈ child.names kind) :
    name ∈ names kind ⟨payload, position, optimized, facts, children⟩ := by
  obtain ⟨inner, within, named⟩ := mem_names.mp mentioned
  refine mem_names.mpr ⟨inner, ?_, named⟩
  rw [payloads, childPayloads_eq_flatMap]
  exact List.mem_cons_of_mem _ (List.mem_flatMap.mpr ⟨child, member, within⟩)

theorem all_function_names_call {holds : String → Bool} {name : String} {position : Position}
    {optimized : Bool} {facts : Facts} {children : List Tree}
    (all : (functionNames ⟨.call name, position, optimized, facts, children⟩).all holds = true) :
    holds name = true ∧ ∀ child ∈ children, child.functionNames.all holds = true := by
  simp only [List.all_eq_true] at all ⊢
  constructor
  · exact all name (mem_names.mpr ⟨.call name, List.mem_cons_self, rfl⟩)
  · exact fun child member called mentioned => all called (names_child member mentioned)

theorem is_side_effect_free_call {registry : Registry} {name : String} {position : Position}
    {optimized : Bool} {facts : Facts} {children : List Tree}
    (quiet : isSideEffectFree registry ⟨.call name, position, optimized, facts, children⟩ = true) :
    (registry.isPure name || (SpecialForm.ofName? name).any SpecialForm.isTransparent) = true ∧
      ∀ child ∈ children, isSideEffectFree registry child = true :=
  all_function_names_call quiet

/-- A call by the name is a form of the given kinds or reaches a builtin function. -/
def admitsName (forms : SpecialForm → Bool) (name : String) : Bool :=
  match SpecialForm.ofName? name with
  | some form => forms form
  | none => !isProcedureName name

/-- All that is evaluated in the tree are leaves, pure functions and special forms of the given
kinds. The children of a leaf are never evaluated and do not count. -/
inductive CallsOnly (registry : Registry) (forms : SpecialForm → Bool) : Tree → Prop where
  | literal (value : Value) (position : Position) (optimized : Bool) (facts : Facts)
      (children : List Tree) :
      CallsOnly registry forms ⟨.literal value, position, optimized, facts, children⟩
  | «variable» (name : String) (position : Position) (optimized : Bool) (facts : Facts)
      (children : List Tree) :
      CallsOnly registry forms ⟨.variable name, position, optimized, facts, children⟩
  | form {name : String} {kind : SpecialForm} (position : Position) (optimized : Bool)
      (facts : Facts) {children : List Tree} : SpecialForm.ofName? name = some kind →
      forms kind = true → (∀ child ∈ children, CallsOnly registry forms child) →
      CallsOnly registry forms ⟨.call name, position, optimized, facts, children⟩
  | function {name : String} {builtin : Builtin} (position : Position) (optimized : Bool)
      (facts : Facts) {children : List Tree} : SpecialForm.ofName? name = none →
      isProcedureName name = false → registry.find? name = some builtin →
      builtin.isPure = true → (∀ child ∈ children, CallsOnly registry forms child) →
      CallsOnly registry forms ⟨.call name, position, optimized, facts, children⟩

abbrev Quiet (registry : Registry) (tree : Tree) : Prop :=
  tree.CallsOnly registry SpecialForm.isTransparent

/-- A tree that is accepted calls pure functions and forms of the given kinds, unless a name in it
means something else. -/
theorem calls_only_of_side_effect_free {registry : Registry} {forms : SpecialForm → Bool}
    {tree : Tree} (free : tree.isSideEffectFree registry = true)
    (admitted : tree.functionNames.all (admitsName forms) = true) :
    tree.CallsOnly registry forms := by
  induction tree using Tree.induction with
  | node payload position optimized facts children induction =>
      cases payload with
      | literal value => exact .literal _ _ _ _ _
      | «variable» name => exact .variable _ _ _ _ _
      | call name =>
          rcases is_side_effect_free_call free with ⟨allowed, freeChildren⟩
          rcases all_function_names_call admitted with ⟨means, admittedChildren⟩
          have below := fun child member =>
            induction child member (freeChildren child member) (admittedChildren child member)
          unfold admitsName at means
          cases special : SpecialForm.ofName? name with
          | some form =>
              rw [special] at means
              exact .form _ _ _ special means below
          | none =>
              rw [special, Option.any_none, Bool.or_false] at allowed
              rcases (Registry.is_pure_iff _ _).mp allowed with ⟨builtin, found, isPure⟩
              rw [special, Bool.not_eq_true'] at means
              exact .function _ _ _ special means found isPure below

theorem quiet_of_side_effect_free {registry : Registry} (apart : registry.KeepsNamesApart)
    (tree : Tree) (free : tree.isSideEffectFree registry = true) : tree.Quiet registry := by
  apply calls_only_of_side_effect_free free
  unfold isSideEffectFree at free
  rw [List.all_eq_true] at free ⊢
  intro name called
  have allowed := free name called
  unfold admitsName
  cases isPure : registry.isPure name with
  | true =>
      rcases apart name isPure with ⟨plain, unnamed⟩
      rw [plain, unnamed]
      rfl
  | false =>
      rw [isPure, Bool.false_or, Option.any_eq_true] at allowed
      rcases allowed with ⟨form, special, transparent⟩
      rw [special]
      exact transparent

end Tree

section Agreement

variable (context : Context) (run : Tree → Run Value) (machine : Machine)

/-- Evaluating a tree comes to what it denotes and leaves the machine as it is. -/
def Denotes (tree : Tree) : Prop :=
  evaluate context run tree machine =
    Run.ofExcept (tree.denote context.registry machine.env.read) machine

variable {context run machine} {children : List Tree}

theorem evaluate_all_denotes (denotes : ∀ child ∈ children, Denotes context run machine child) :
    evaluateAll context run children machine =
      Run.ofExcept (Tree.denoteAll context.registry machine.env.read children) machine := by
  induction children with
  | nil => rfl
  | cons child rest induction =>
      have first : Denotes context run machine child := denotes child (by simp)
      have others := induction fun other member => denotes other (by simp [member])
      unfold Denotes at first
      simp only [evaluateAll, Tree.denoteAll, bind_apply, first]
      cases child.denote context.registry machine.env.read with
      | error error => rfl
      | ok value =>
          simp only [Run.ofExcept, others]
          cases Tree.denoteAll context.registry machine.env.read rest <;> rfl

theorem evaluate_sequence_denotes
    (denotes : ∀ child ∈ children, Denotes context run machine child) (last : Value) :
    evaluateSequence context run last children machine =
      Run.ofExcept (Tree.denoteSequence context.registry machine.env.read last children)
        machine := by
  induction children generalizing last with
  | nil => rfl
  | cons child rest induction =>
      have first : Denotes context run machine child := denotes child (by simp)
      have others := induction fun other member => denotes other (by simp [member])
      unfold Denotes at first
      simp only [evaluateSequence, Tree.denoteSequence, bind_apply, first]
      cases child.denote context.registry machine.env.read with
      | error error => rfl
      | ok value => exact others value

theorem evaluate_branches_denotes : (children : List Tree) →
    (∀ child ∈ children, Denotes context run machine child) →
    evaluateBranches context run children machine =
      Run.ofExcept (Tree.denoteBranches context.registry machine.env.read children) machine
  | [], _ => rfl
  | [otherwise], denotes => by
      simp only [evaluateBranches, Tree.denoteBranches]
      exact denotes otherwise (by simp)
  | condition :: branch :: rest, denotes => by
      have decision : Denotes context run machine condition := denotes condition (by simp)
      have taken : Denotes context run machine branch := denotes branch (by simp)
      have others := evaluate_branches_denotes rest
        fun other member => denotes other (by simp [member])
      unfold Denotes at decision taken
      simp only [evaluateBranches, Tree.denoteBranches, bind_apply, decision]
      cases condition.denote context.registry machine.env.read with
      | error error => rfl
      | ok value =>
          cases truth : value.isTruthy <;> simp [Run.ofExcept, truth, others, taken]

/-- Evaluation agrees with `denote` on all trees without side effects. -/
theorem evaluate_quiet (faithful : context.registry.ComputesPurely)
    (clear : machine.store.interrupted = false) {tree : Tree}
    (quiet : tree.Quiet context.registry) : Denotes context run machine tree := by
  unfold Denotes
  induction quiet with
  | literal value position optimized facts children =>
      rw [evaluate_literal, unless_interrupted_clear _ clear]
      rfl
  | «variable» name position optimized facts children =>
      rw [evaluate_variable, unless_interrupted_clear _ clear]
      simp only [Tree.denote]
      rfl
  | @form name kind position optimized facts children special transparent below denotes =>
      cases accepted : kind.arity.accepts children.length with
      | false =>
          rw [evaluate_mismatch _ _ _ _ _ _ special accepted, unless_interrupted_clear _ clear]
          simp only [Tree.denote, special, accepted]
          rfl
      | true =>
          rw [evaluate_form _ _ _ _ _ _ special accepted, unless_interrupted_clear _ clear]
          simp only [Tree.denote, special, accepted, if_true]
          cases kind with
          | autoConcat => exact evaluate_sequence_denotes denotes .void
          | sequence => exact evaluate_sequence_denotes denotes .void
          | conditional => exact evaluate_branches_denotes _ denotes
          | choice => exact evaluate_branches_denotes _ denotes
          | _ => cases transparent
  | @function name builtin position optimized facts children plain named found isPure below
      denotes =>
      rw [evaluate_builtin _ _ _ _ _ _ plain named found, unless_interrupted_clear _ clear,
        bind_apply, evaluate_all_denotes denotes]
      simp only [Tree.denote, plain]
      cases Tree.denoteAll context.registry machine.env.read children with
      | error error => rfl
      | ok values => exact call_builtin_pure faithful found isPure position values machine

end Agreement

namespace Tree

theorem fresh_copy_twice (tree : Tree) : tree.freshCopy.freshCopy = tree.freshCopy := by
  induction tree using Tree.induction with
  | node payload position optimized facts children induction =>
      simp only [freshCopy, freshCopies_eq_map, List.map_map]
      congr 1
      exact List.map_congr_left induction

theorem substitute_all_eq_map (bindings : Bindings Tree) (children : List Tree) :
    substituteAll bindings children = children.map (substitute bindings) := by
  induction children with
  | nil => rfl
  | cons child rest induction => rw [substituteAll, induction, List.map_cons]

namespace CallsOnly

variable {registry : Registry} {forms : SpecialForm → Bool} {tree : Tree}

theorem notes {payload : Payload} {position : Position} {optimized : Bool} {facts : Facts}
    {children : List Tree}
    (calls : CallsOnly registry forms ⟨payload, position, optimized, facts, children⟩)
    (position' : Position) (optimized' : Bool) (facts' : Facts) :
    CallsOnly registry forms ⟨payload, position', optimized', facts', children⟩ := by
  cases calls with
  | literal => exact .literal _ _ _ _ _
  | «variable» => exact .variable _ _ _ _ _
  | form _ _ _ special allowed below => exact .form _ _ _ special allowed below
  | function _ _ _ plain named found isPure below =>
      exact .function _ _ _ plain named found isPure below

theorem place_at (calls : tree.CallsOnly registry forms) (position : Position) :
    (tree.placeAt position).CallsOnly registry forms := by
  rcases tree with ⟨payload, place, optimized, facts, children⟩
  exact calls.notes position optimized facts

theorem calls_no_procedure {name : String} {position : Position} {optimized : Bool} {facts : Facts}
    {children : List Tree}
    (calls : CallsOnly registry forms ⟨.call name, position, optimized, facts, children⟩)
    (plain : SpecialForm.ofName? name = none) : isProcedureName name = false := by
  cases calls with
  | form _ _ _ special allowed below =>
      rw [plain] at special
      cases special
  | function _ _ _ _ unnamed found isPure below => exact unnamed

theorem copy (calls : tree.CallsOnly registry forms) : tree.copy.CallsOnly registry forms := by
  induction calls with
  | literal => exact .literal _ _ _ _ _
  | «variable» => exact .variable _ _ _ _ _
  | form _ _ _ special allowed below induction =>
      rw [Tree.copy, copies_eq_map]
      exact .form _ _ _ special allowed (List.forall_mem_map.mpr induction)
  | function _ _ _ plain named found isPure below induction =>
      rw [Tree.copy, copies_eq_map]
      exact .function _ _ _ plain named found isPure (List.forall_mem_map.mpr induction)

theorem fresh_copy (calls : tree.CallsOnly registry forms) :
    tree.freshCopy.CallsOnly registry forms := by
  induction calls with
  | literal => exact .literal _ _ _ _ _
  | «variable» => exact .variable _ _ _ _ _
  | form _ _ _ special allowed below induction =>
      rw [Tree.freshCopy, freshCopies_eq_map]
      exact .form _ _ _ special allowed (List.forall_mem_map.mpr induction)
  | function _ _ _ plain named found isPure below induction =>
      rw [Tree.freshCopy, freshCopies_eq_map]
      exact .function _ _ _ plain named found isPure (List.forall_mem_map.mpr induction)

theorem substitute {bindings : Bindings Tree} (calls : tree.CallsOnly registry forms)
    (bound : ∀ name found, bindings.find? name = some found → found.CallsOnly registry forms) :
    (tree.substitute bindings).CallsOnly registry forms := by
  induction calls with
  | literal =>
      simp only [Tree.substitute, Payload.variableName?, Option.bind_none]
      exact .literal _ _ _ _ _
  | «variable» name =>
      simp only [Tree.substitute, Payload.variableName?, Option.bind_some]
      cases found : bindings.find? name with
      | none => exact .variable _ _ _ _ _
      | some tree => exact (bound name tree found).copy
  | form _ _ _ special allowed below induction =>
      simp only [Tree.substitute, Payload.variableName?, Option.bind_none]
      rw [substitute_all_eq_map]
      exact .form _ _ _ special allowed (List.forall_mem_map.mpr induction)
  | function _ _ _ plain named found isPure below induction =>
      simp only [Tree.substitute, Payload.variableName?, Option.bind_none]
      rw [substitute_all_eq_map]
      exact .function _ _ _ plain named found isPure (List.forall_mem_map.mpr induction)

end CallsOnly

section Denotation

variable {registry : Registry} {read read' : Reading} {change : Tree → Tree}
  {children : List Tree}

theorem denote_sequence_eq (children : List Tree) (last : Value) :
    denoteSequence registry read last children =
      (denoteAll registry read children).map fun values => values.getLast?.getD last := by
  induction children generalizing last with
  | nil => rfl
  | cons first rest induction =>
      rw [denoteSequence, denoteAll]
      cases denote registry read first with
      | error error => rfl
      | ok value =>
          dsimp only
          rw [induction value]
          cases denoteAll registry read rest with
          | error error => rfl
          | ok values => simp only [Except.map, List.getLast?_cons, Option.getD_some]

theorem denote_all_map
    (same : ∀ child ∈ children,
      denote registry read (change child) = denote registry read' child) :
    denoteAll registry read (children.map change) = denoteAll registry read' children := by
  induction children with
  | nil => rfl
  | cons child rest induction =>
      have others := induction fun other member => same other (by simp [member])
      simp only [List.map_cons, denoteAll, same child (by simp), others]

theorem denote_branches_map : (children : List Tree) →
    (∀ child ∈ children, denote registry read (change child) = denote registry read' child) →
    denoteBranches registry read (children.map change) = denoteBranches registry read' children
  | [], _ => rfl
  | [otherwise], same => by simp [denoteBranches, same otherwise]
  | condition :: branch :: rest, same => by
      have others := denote_branches_map rest fun other member => same other (by simp [member])
      simp only [List.map_cons, denoteBranches, same condition (by simp), same branch (by simp),
        others]

/-- A change of the children that keeps what they denote keeps what a call denotes. -/
theorem denote_call_map (name : String) (position : Position) (optimized optimized' : Bool)
    (facts facts' : Facts)
    (same : ∀ child ∈ children,
      denote registry read (change child) = denote registry read' child) :
    denote registry read ⟨.call name, position, optimized, facts, children.map change⟩ =
      denote registry read' ⟨.call name, position, optimized', facts', children⟩ := by
  simp only [denote, List.length_map, denote_sequence_eq, denote_all_map same,
    denote_branches_map children same]

theorem denote_fresh_copy (tree : Tree) :
    denote registry read tree.freshCopy = denote registry read tree := by
  induction tree using Tree.induction with
  | node payload position optimized facts children induction =>
      rw [freshCopy, freshCopies_eq_map]
      cases payload with
      | call name => exact denote_call_map name position false optimized {} facts induction
      | _ => simp only [denote]

theorem denote_copy (tree : Tree) : denote registry read tree.copy = denote registry read tree := by
  induction tree using Tree.induction with
  | node payload position optimized facts children induction =>
      rw [copy, copies_eq_map]
      cases payload with
      | call name => exact denote_call_map name position optimized optimized {} facts induction
      | _ => simp only [denote]

def substituted (registry : Registry) (read : Reading) (bindings : Bindings Tree) : Reading :=
  fun name position =>
    match bindings.find? name with
    | some tree => denote registry read tree
    | none => read name position

/-- To put trees in the place of variables is to read those variables in the trees. -/
theorem denote_substitute (bindings : Bindings Tree) (tree : Tree) :
    denote registry read (tree.substitute bindings) =
      denote registry (substituted registry read bindings) tree := by
  induction tree using Tree.induction with
  | node payload position optimized facts children induction =>
      cases payload with
      | literal value => simp only [substitute, Payload.variableName?, Option.bind_none, denote]
      | «variable» name =>
          simp only [substitute, Payload.variableName?, Option.bind_some, denote, substituted]
          cases bindings.find? name with
          | none => simp only [denote]
          | some tree => exact denote_copy tree
      | call name =>
          simp only [substitute, Payload.variableName?, Option.bind_none]
          rw [substitute_all_eq_map]
          exact denote_call_map name position optimized optimized {} facts induction

theorem mem_variable_names {tree : Tree} {name : String} :
    name ∈ tree.variableNames ↔ Payload.variable name ∈ tree.payloads := by
  rw [variableNames, mem_names]
  constructor
  · rintro ⟨payload, within, named⟩
    cases payload with
    | «variable» read =>
        cases named
        exact within
    | _ => cases named
  · intro within
    exact ⟨_, within, rfl⟩

theorem denote_congr (tree : Tree)
    (same : ∀ name ∈ tree.variableNames, ∀ position, read name position = read' name position) :
    denote registry read tree = denote registry read' tree := by
  induction tree using Tree.induction with
  | node payload position optimized facts children induction =>
      cases payload with
      | literal value => simp only [denote]
      | «variable» name =>
          have mentioned : name ∈ variableNames ⟨.variable name, position, optimized, facts,
              children⟩ := by
            rw [mem_variable_names, payloads]
            exact List.mem_cons_self
          simp only [denote, same name mentioned]
      | call name =>
          have below : ∀ child ∈ children,
              denote registry read (id child) = denote registry read' child := by
            intro child member
            exact induction child member fun read member' =>
              same read (names_child member member')
          have whole := denote_call_map name position optimized optimized facts facts below
          rw [List.map_id] at whole
          exact whole

def Reading.IgnoresPosition (read : Reading) : Prop :=
  ∀ name position position' value,
    read name position = .ok value → read name position' = .ok value

theorem result_place {name : String} {position position' : Position} {values : List Value}
    {value : Value} (done : registry.result name position values = .ok value) :
    registry.result name position' values = .ok value := by
  unfold Registry.result at done ⊢
  cases found : registry.find? name with
  | none => simp [found] at done
  | some builtin =>
      rw [found] at done
      simp only at done ⊢
      split at done
      · rename_i accepted
        rw [if_pos accepted]
        cases outcome : builtin.run ⟨.unknown, none, registry.catalogue⟩ values {} with
        | ok result store =>
            rw [outcome] at done
            exact done
        | error fault store =>
            rw [outcome] at done
            cases done
      · cases done

/-- The position of a node only matters for its errors. -/
theorem denote_place_at (ignores : read.IgnoresPosition) {tree : Tree} {position : Position}
    {value : Value} (done : denote registry read tree = .ok value) :
    denote registry read (tree.placeAt position) = .ok value := by
  rcases tree with ⟨payload, old, optimized, facts, children⟩
  cases payload with
  | literal value' => exact done
  | «variable» name => exact ignores name old position value done
  | call name =>
      simp only [placeAt, denote] at done ⊢
      cases special : SpecialForm.ofName? name with
      | some form =>
          simp only [special] at done ⊢
          split at done
          · rename_i accepted
            rw [if_pos accepted]
            exact done
          · cases done
      | none =>
          simp only [special] at done ⊢
          cases arguments : denoteAll registry read children with
          | error error =>
              rw [arguments] at done
              cases done
          | ok values =>
              rw [arguments] at done
              exact result_place done

theorem denote_place_at_iff (ignores : read.IgnoresPosition) (tree : Tree) (position : Position)
    (value : Value) :
    denote registry read (tree.placeAt position) = .ok value ↔
      denote registry read tree = .ok value := by
  constructor
  · intro done
    have back : denote registry read ((tree.placeAt position).placeAt tree.position) = .ok value :=
      denote_place_at ignores done
    cases tree
    exact back
  · exact denote_place_at ignores

end Denotation

section Strictness

variable {registry : Registry} {read : Reading} {children : List Tree} {child : Tree}

def Reading.Fails (read : Reading) (name : String) : Prop :=
  ∀ position, ∃ error, read name position = .error error

theorem denote_all_fails {error : EvalError} (member : child ∈ children)
    (fails : denote registry read child = .error error) :
    ∃ error, denoteAll registry read children = .error error := by
  induction children with
  | nil => cases member
  | cons first rest induction =>
      simp only [denoteAll]
      cases outcome : denote registry read first with
      | error error => exact ⟨error, rfl⟩
      | ok value =>
          cases member with
          | head =>
              rw [fails] at outcome
              cases outcome
          | tail _ later =>
              rcases induction later with ⟨other, failed⟩
              simp only [failed]
              exact ⟨other, rfl⟩

theorem denote_sequence_fails {error : EvalError} (member : child ∈ children)
    (fails : denote registry read child = .error error) (last : Value) :
    ∃ error, denoteSequence registry read last children = .error error := by
  rcases denote_all_fails member fails with ⟨other, failed⟩
  refine ⟨other, ?_⟩
  rw [denote_sequence_eq, failed]
  rfl

/-- Of a conditional the first condition counts, and of any other call all arguments. -/
theorem certain_reads_call (called : String) (position : Position) (optimized : Bool)
    (facts : Facts) (children : List Tree) :
    certainReads ⟨.call called, position, optimized, facts, children⟩ =
      match SpecialForm.ofName? called with
      | some .conditional | some .choice => firstReads children
      | _ => allReads children := by
  rw [certainReads, isConditional, Payload.functionName?, Option.bind_some]
  cases SpecialForm.ofName? called with
  | none => rfl
  | some form => cases form <;> rfl

theorem mem_all_reads {name : String} (children : List Tree) :
    name ∈ allReads children ↔ ∃ child ∈ children, name ∈ child.certainReads := by
  induction children with
  | nil => simp [allReads]
  | cons child rest induction => simp [allReads, induction]

theorem denote_branches_fails {name : String} (certain : name ∈ firstReads children)
    (fails : ∀ child ∈ children, name ∈ child.certainReads →
      ∃ error, denote registry read child = .error error) :
    ∃ error, denoteBranches registry read children = .error error := by
  match children with
  | [] => cases certain
  | [otherwise] =>
      rw [denoteBranches]
      exact fails otherwise (by simp) certain
  | condition :: branch :: rest =>
      rcases fails condition (by simp) certain with ⟨error, failed⟩
      exact ⟨error, by simp only [denoteBranches, failed]⟩

/-- A tree whose certain reads include a name that cannot be read has no value. -/
theorem denote_fails_of_certain_read {name : String} (unreadable : read.Fails name) {tree : Tree}
    (quiet : tree.Quiet registry) (bare : tree.Everywhere BareLeaf)
    (certain : name ∈ tree.certainReads) : ∃ error, denote registry read tree = .error error := by
  induction quiet with
  | literal value position optimized facts children =>
      obtain rfl : children = [] := bare.here rfl
      cases certain
  | «variable» other position optimized facts children =>
      obtain rfl : children = [] := bare.here rfl
      obtain rfl : name = other := List.mem_singleton.mp certain
      rw [denote]
      exact unreadable position
  | @form called kind position optimized facts children special transparent below induction =>
      have fails : ∀ child ∈ children, name ∈ child.certainReads →
          ∃ error, denote registry read child = .error error :=
        fun child member => induction child member (bare.inside child member)
      rw [certain_reads_call, special] at certain
      simp only [denote, special]
      split
      · cases kind with
        | autoConcat | sequence =>
            rcases (mem_all_reads children).mp certain with ⟨child, member, read⟩
            rcases fails child member read with ⟨error, failed⟩
            exact denote_sequence_fails member failed .void
        | conditional | choice => exact denote_branches_fails certain fails
        | _ => cases transparent
      · exact ⟨_, rfl⟩
  | @function called builtin position optimized facts children plain named found isPure below
      induction =>
      rw [certain_reads_call, plain] at certain
      rcases (mem_all_reads children).mp certain with ⟨child, member, read⟩
      rcases induction child member (bare.inside child member) read with ⟨error, failed⟩
      rcases denote_all_fails member failed with ⟨other, failedAll⟩
      exact ⟨other, by simp only [denote, plain, failedAll]⟩

end Strictness

section Errors

variable {registry : Registry} {read : Reading} {children : List Tree} {error : EvalError}

theorem denote_all_error (failed : denoteAll registry read children = .error error) :
    ∃ child ∈ children, denote registry read child = .error error := by
  induction children with
  | nil => cases failed
  | cons first rest induction =>
      simp only [denoteAll] at failed
      cases outcome : denote registry read first with
      | error found =>
          simp only [outcome, Except.error.injEq] at failed
          subst failed
          exact ⟨first, by simp, outcome⟩
      | ok value =>
          simp only [outcome] at failed
          cases others : denoteAll registry read rest with
          | error found =>
              simp only [others, Except.error.injEq] at failed
              subst failed
              rcases induction others with ⟨child, member, cause⟩
              exact ⟨child, by simp [member], cause⟩
          | ok values =>
              rw [others] at failed
              cases failed

theorem denote_sequence_error {last : Value}
    (failed : denoteSequence registry read last children = .error error) :
    ∃ child ∈ children, denote registry read child = .error error := by
  rw [denote_sequence_eq] at failed
  cases outcome : denoteAll registry read children with
  | error found =>
      rw [outcome] at failed
      cases failed
      exact denote_all_error outcome
  | ok values =>
      rw [outcome] at failed
      cases failed

theorem denote_branches_error : (children : List Tree) →
    denoteBranches registry read children = .error error →
    ∃ child ∈ children, denote registry read child = .error error
  | [], failed => by cases failed
  | [otherwise], failed => by
      simp only [denoteBranches] at failed
      exact ⟨otherwise, by simp, failed⟩
  | condition :: branch :: rest, failed => by
      simp only [denoteBranches] at failed
      cases outcome : denote registry read condition with
      | error found =>
          rw [outcome] at failed
          exact ⟨condition, by simp, outcome.trans failed⟩
      | ok decision =>
          simp only [outcome] at failed
          split at failed
          · exact ⟨branch, by simp, failed⟩
          · rcases denote_branches_error rest failed with ⟨child, member, cause⟩
            exact ⟨child, by simp [member], cause⟩

def Reading.Ordinary (read : Reading) : Prop :=
  ∀ name position error, read name position = .error error → error.isOrdinary = true

theorem result_error_ordinary {name : String} {position : Position} {values : List Value}
    (failed : registry.result name position values = .error error) : error.isOrdinary = true := by
  unfold Registry.result at failed
  split at failed
  · split at failed
    · split at failed
      · cases failed
      · cases failed
        rfl
    · cases failed
      rfl
  · cases failed
    rfl

/-- What a tree without side effects fails with is an error of its own. -/
theorem denote_error_ordinary (ordinary : read.Ordinary) (tree : Tree)
    (failed : denote registry read tree = .error error) : error.isOrdinary = true := by
  induction tree using Tree.induction with
  | node payload position optimized facts children induction =>
      cases payload with
      | literal value => cases failed
      | «variable» name => exact ordinary name position error failed
      | call name =>
          simp only [denote] at failed
          split at failed
          · split at failed
            · split at failed
              · rcases denote_sequence_error failed with ⟨child, member, cause⟩
                exact induction child member cause
              · rcases denote_branches_error children failed with ⟨child, member, cause⟩
                exact induction child member cause
            · cases failed
              rfl
          · split at failed
            · exact result_error_ordinary failed
            · rename_i found cause
              cases failed
              rcases denote_all_error cause with ⟨child, member, cause⟩
              exact induction child member cause

end Errors

end Tree

end TreeScript
