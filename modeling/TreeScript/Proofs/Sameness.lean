import TreeScript.Optimize
import TreeScript.Proofs.Rewriting
/-!
# Trees that come to the same

What an optimizer does to a tree without looking inside of it: it notes things on nodes, drops
statements without effect, takes sequences apart and puts what is left of a conditional in its
place. Each of these gives a tree that is evaluated as the first one was.
-/

namespace TreeScript

set_option autoImplicit false

namespace Tree

namespace Same

variable {registry : Registry}

theorem refl (tree : Tree) : tree.Same registry tree :=
  ⟨fun _ _ => rfl, fun _ => Iff.rfl, fun calm => calm⟩

theorem trans {first second third : Tree} (before : first.Same registry second)
    (after : second.Same registry third) : first.Same registry third :=
  ⟨fun context run => (before.evaluates context run).trans (after.evaluates context run),
    fun name => (before.exposes name).trans (after.exposes name),
    fun calm => before.calm (after.calm calm)⟩

theorem notes (payload : Payload) (position : Position) (optimized optimized' : Bool)
    (facts facts' : Facts) (children : List Tree) :
    Tree.Same registry ⟨payload, position, optimized, facts, children⟩
      ⟨payload, position, optimized', facts', children⟩ := by
  refine ⟨fun context run => evaluate_notes context run position optimized facts children payload
    optimized' facts', ?_, ?_⟩
  · intro name
    cases payload <;> simp only [exposed]
  · exact fun calm => calm.notes position optimized facts

theorem settle (tree : Tree) (flag : Bool) : tree.Same registry (tree.settle flag) := by
  rcases tree with ⟨payload, position, optimized, facts, children⟩
  exact notes payload position optimized flag facts facts children

theorem remember (kind : FactKind) (tree : Tree) : tree.Same registry (tree.remember kind) := by
  rcases tree with ⟨payload, position, optimized, facts, children⟩
  unfold Tree.remember Tree.ask
  split
  · exact refl _
  · exact notes payload position optimized optimized facts _ children

end Same

end Tree

section Sequences

variable (context : Context) (run : Tree → Run Value)

theorem evaluate_sequence_checked (last : Value) (node : Tree) (rest : List Tree) :
    unlessInterrupted (evaluateSequence context run last (node :: rest)) =
      evaluateSequence context run last (node :: rest) := by
  rw [evaluateSequence, ← unless_interrupted_bind, evaluate_checked]

theorem is_void_literal {statement : Tree} (dropped : isVoidLiteral statement = true) :
    ∃ position optimized facts children,
      statement = ⟨.literal .void, position, optimized, facts, children⟩ := by
  rcases statement with ⟨payload, position, optimized, facts, children⟩
  cases payload with
  | literal value =>
      cases value with
      | void => exact ⟨position, optimized, facts, children, rfl⟩
      | _ => cases dropped
  | _ => cases dropped

theorem evaluate_drop_voids (statements : List Tree) (last : Value) :
    evaluateSequence context run last (dropVoids statements) =
      evaluateSequence context run last statements := by
  match statements with
  | [] => rfl
  | [statement] => rfl
  | statement :: next :: rest =>
      have others := fun last => evaluate_drop_voids (next :: rest) last
      rw [dropVoids]
      split
      · rename_i dropped
        rcases is_void_literal dropped with ⟨position, optimized, facts, children, rfl⟩
        have skipped : evaluateSequence context run last
            (⟨.literal .void, position, optimized, facts, children⟩ :: next :: rest) =
            unlessInterrupted (evaluateSequence context run .void (next :: rest)) := by
          rw [evaluateSequence, evaluate_literal, unless_interrupted_bind]
          rfl
        rw [others last, skipped, evaluate_sequence_checked]
        rfl
      · funext machine
        rw [evaluateSequence, evaluateSequence]
        simp only [others]

theorem evaluate_collapse (position : Position) (statements : List Tree) :
    evaluate context run (collapse position statements) =
      unlessInterrupted (evaluateSequence context run .void statements) := by
  match statements with
  | [] =>
      have shape : collapse position [] = ⟨.literal .void, position, false, {}, []⟩ := rfl
      rw [shape, evaluate_literal]
      rfl
  | [statement] =>
      rw [evaluate_sequence_single, evaluate_checked]
      rfl
  | first :: second :: rest =>
      exact evaluate_sequence_node context run position false {} _
        (SpecialForm.ofName?_name .sequence) rfl

end Sequences

namespace Tree

variable {registry : Registry}

theorem exposed_drop_voids (statements : List Tree) :
    exposedAll (dropVoids statements) = exposedAll statements := by
  match statements with
  | [] => rfl
  | [statement] => rfl
  | statement :: next :: rest =>
      have others := exposed_drop_voids (next :: rest)
      rw [dropVoids]
      split
      · rename_i dropped
        rcases is_void_literal dropped with ⟨position, optimized, facts, children, rfl⟩
        rw [others]
        simp [exposedAll, exposed]
      · rw [exposedAll, others]
        rfl

theorem calm_drop_voids (statements : List Tree)
    (calm : ∀ statement ∈ dropVoids statements, statement.Calm registry) :
    ∀ statement ∈ statements, statement.Calm registry := by
  match statements with
  | [] => exact calm
  | [statement] => exact calm
  | statement :: next :: rest =>
      rw [dropVoids] at calm
      split at calm
      · rename_i dropped
        rcases is_void_literal dropped with ⟨position, optimized, facts, children, rfl⟩
        intro other member
        rcases List.mem_cons.mp member with rfl | later
        · exact .literal _ _ _ _ _
        · exact calm_drop_voids (next :: rest) calm other later
      · intro other member
        rcases List.mem_cons.mp member with rfl | later
        · exact calm other List.mem_cons_self
        · exact calm_drop_voids (next :: rest)
            (fun other member => calm other (List.mem_cons_of_mem _ member)) other later

theorem exposed_collapse (position : Position) (statements : List Tree) :
    (collapse position statements).exposed = exposedAll statements := by
  match statements with
  | [] => rfl
  | [statement] => simp [collapse, exposedAll]
  | first :: second :: rest =>
      exact exposed_sequence (SpecialForm.ofName?_name .sequence) rfl

theorem calm_collapse {position : Position} {statements : List Tree}
    (calm : (collapse position statements).Calm registry) :
    ∀ statement ∈ statements, statement.Calm registry := by
  match statements with
  | [] => exact fun statement member => by cases member
  | [statement] =>
      intro other member
      rw [List.mem_singleton] at member
      rw [member]
      exact calm
  | first :: second :: rest => exact calm.call_children

/-- A sequence without needless statements, or without the sequence around a single one. -/
theorem same_flatten (position position' : Position) (optimized : Bool) (facts : Facts)
    (statements : List Tree) :
    Tree.Same registry ⟨.call SpecialForm.sequence.name, position', optimized, facts, statements⟩
      (collapse position (dropVoids statements)) := by
  refine ⟨fun context run => ?_, fun name => ?_, fun calm => ?_⟩
  · rw [evaluate_collapse, evaluate_drop_voids]
    exact evaluate_sequence_node context run position' optimized facts statements
      (SpecialForm.ofName?_name .sequence) rfl
  · rw [exposed_collapse, exposed_drop_voids,
      exposed_sequence (SpecialForm.ofName?_name .sequence) rfl]
  · exact .form _ _ _ (SpecialForm.ofName?_name .sequence) rfl
      (calm_drop_voids statements (calm_collapse calm))

/-- A sequence in the place of a statement can be taken apart. -/
theorem spreads_splice {tree : Tree} (full : tree.specialForm?.any SpecialForm.isSequence = true →
    tree.children ≠ []) : tree.Spreads registry (splice tree) := by
  rcases tree with ⟨payload, position, optimized, facts, children⟩
  unfold splice
  split
  · rename_i sequence
    have some_child := full sequence
    cases payload with
    | literal value => cases sequence
    | «variable» name => cases sequence
    | call name =>
        rcases (Option.any_eq_true _ _).mp sequence with ⟨form, special, isSeq⟩
        have named : SpecialForm.ofName? name = some form := special
        cases children with
        | nil => exact absurd rfl some_child
        | cons first rest =>
            refine ⟨fun context run last => ?_, fun name => ?_, fun calm => ?_⟩
            · rw [evaluate_sequence_node _ _ _ _ _ _ named isSeq, evaluate_sequence_checked]
              rfl
            · rw [exposed_sequence named isSeq]
            · refine .form _ _ _ named ?_ calm
              simp [isCalm, SpecialForm.isTransparent_of_isSequence isSeq]
  · refine ⟨fun context run last => ?_, fun name => ?_, fun calm => ?_⟩
    · exact evaluate_sequence_single context run last _
    · simp [exposedAll]
    · exact calm _ (by simp)

theorem chooses_resolve {name : String} {form : SpecialForm} (position : Position)
    (optimized : Bool) (facts : Facts) (children : List Tree) {branches : List Tree}
    (special : SpecialForm.ofName? name = some form)
    (branching : form = .conditional ∨ form = .choice)
    (accepted : form.arity.accepts children.length = true)
    (fewer : branches.length ≤ children.length) :
    (resolve ⟨.call name, position, optimized, facts, children⟩ branches).Chooses registry
      branches := by
  match branches with
  | [] => exact ⟨fun context run => evaluate_literal _ _ _ _ _ _ _, fun name => Iff.rfl, by simp⟩
  | [branch] =>
      refine ⟨fun context run => (evaluate_checked context run branch).symm, ?_, ?_⟩
      · simp [exposedAll, resolve]
      · intro calm other member
        rw [List.mem_singleton] at member
        exact member ▸ calm
  | first :: second :: rest =>
      have enough : form.arity.accepts (first :: second :: rest).length = true := by
        rcases branching with rfl | rfl
        · simp only [SpecialForm.arity, Arity.accepts_between] at accepted ⊢
          exact ⟨by simp, Nat.le_trans fewer accepted.2⟩
        · simp [SpecialForm.arity]
      refine ⟨fun context run => ?_, fun name => ?_, fun calm => calm.call_children⟩
      · exact evaluate_branch_node _ _ _ _ _ _ special branching enough
      · rcases branching with rfl | rfl
        all_goals simp only [resolve, setChildren, forget, exposed, special]

namespace Same

theorem arguments {context : Context} {run : Tree → Run Value} {nodes nodes' : List Tree}
    (same : List.Forall₂ (Tree.Same registry) nodes nodes') :
    evaluateAll context run nodes = evaluateAll context run nodes' := by
  induction same with
  | nil => rfl
  | cons first rest induction => rw [evaluateAll, evaluateAll, first.evaluates, induction]

theorem exposed_all {nodes nodes' : List Tree}
    (same : List.Forall₂ (Tree.Same registry) nodes nodes') :
    ∀ name, name ∈ exposedAll nodes ↔ name ∈ exposedAll nodes' := by
  induction same with
  | nil => simp
  | cons first rest induction =>
      intro name
      rw [exposedAll, exposedAll, List.mem_append, List.mem_append]
      exact or_congr (first.exposes name) (induction name)

theorem calm_all {nodes nodes' : List Tree}
    (same : List.Forall₂ (Tree.Same registry) nodes nodes')
    (calm : ∀ node ∈ nodes', node.Calm registry) : ∀ node ∈ nodes, node.Calm registry := by
  induction same with
  | nil => simp
  | cons first rest induction =>
      rw [List.forall_mem_cons] at calm ⊢
      exact ⟨first.calm calm.1, induction calm.2⟩

theorem procedure_call {name : String} (position : Position) (optimized optimized' : Bool)
    (facts facts' : Facts) {children children' : List Tree}
    (plain : SpecialForm.ofName? name = none) (named : isProcedureName name = true)
    (same : List.Forall₂ (Tree.Same registry) children children') :
    Tree.Same registry ⟨.call name, position, optimized, facts, children⟩
      ⟨.call name, position, optimized', facts', children'⟩ := by
  refine ⟨fun context run => ?_, fun other => ?_, fun calm => ?_⟩
  · rw [evaluate_call _ _ _ _ _ _ plain named, evaluate_call _ _ _ _ _ _ plain named]
    unfold evaluateCall
    rw [arguments same]
  · simp only [exposed, plain]
    exact exposed_all same other
  · rw [calm.calls_no_procedure plain] at named
    cases named

/-- A `return` of an expression that comes to the same. -/
theorem returned (position : Position) (optimized optimized' : Bool) (facts facts' : Facts)
    {expression expression' : Tree} (same : expression.Same registry expression') :
    Tree.Same registry
      ⟨.call SpecialForm.returning.name, position, optimized, facts, [expression]⟩
      ⟨.call SpecialForm.returning.name, position, optimized', facts', [expression']⟩ := by
  have special := SpecialForm.ofName?_name .returning
  refine ⟨fun context run => ?_, fun name => ?_, fun calm => ?_⟩
  · rw [evaluate_form _ _ _ _ _ _ special rfl, evaluate_form _ _ _ _ _ _ special rfl]
    simp only [evaluateForm, evaluate_sequence_single, same.evaluates]
  · simp only [exposed, special]
    exact exposed_all (.cons same .nil) name
  · apply CallsOnly.form _ _ _ special rfl
    exact calm_all (.cons same .nil) calm.call_children

theorem analyzed (name : String) (params : List Tree) (body : Tree) :
    body.Same registry (Definition.analyze registry name params body).2 := by
  rcases analyzed_body registry name params body with
    same | same | ⟨expression, expression', returns, noted, same⟩
  · rw [same]
    exact refl body
  · rw [same]
    exact remember .functionNames body
  · rw [same]
    have once : expression.Same registry (expression.remember .variableNames) :=
      remember .variableNames expression
    have kept : expression.Same registry expression' := by
      rcases noted with rfl | rfl
      · exact once
      · exact once.trans (remember .functionNames _)
    rcases returned_eq_some returns with ⟨payload, children⟩
    rcases body with ⟨payload', position, optimized, facts, children'⟩
    subst payload children
    unfold Tree.remember Tree.ask
    split
    · exact returned _ _ _ _ _ kept
    · exact returned _ _ _ _ _ kept

end Same

theorem same_inspected (registry : Registry) (arguments : List Tree) :
    List.Forall₂ (Tree.Same registry) arguments (Template.inspect registry arguments) := by
  induction arguments with
  | nil => exact .nil
  | cons argument rest induction =>
      rw [Template.inspect]
      apply List.Forall₂.cons (Same.remember .functionNames argument)
      split
      · exact induction
      · exact List.forall₂_same.mpr fun other _ => Same.refl other

end Tree

end TreeScript
