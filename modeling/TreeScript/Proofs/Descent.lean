import TreeScript.Proofs.Contracts
import TreeScript.Proofs.Standard
/-!
# Replacements are not replaced again

The optimizer visits the expression that replaces a call, and that visit is not one of a smaller
tree. It ends because no procedure is called in the expression: the body of a template has no side
effects, and the arguments of a call that is replaced have none.

So a visit of a replacement never comes to a further one, and what stands in for such visits makes
no difference. To see it, two optimizers that only differ in that are compared step by step. They
agree as long as the frames hold nothing but templates that were made of definitions.

Main statement: two visits deep is as deep as any run of the optimizer gets.
-/

namespace TreeScript

set_option autoImplicit false

def Registry.LeavesProcedureNames (registry : Registry) : Prop :=
  ∀ name, Tree.isProcedureName name = true → registry.isPure name = false

abbrev Tree.CallsNoProcedure (registry : Registry) (tree : Tree) : Prop :=
  tree.CallsOnly registry fun _ => true

structure Template.CallsNoProcedure (registry : Registry) (template : Template) : Prop where
  body : template.body.CallsNoProcedure registry
  defaults : ∀ slot ∈ template.slots, ∀ default, slot.default = some default →
    default.CallsNoProcedure registry

section Replacements

variable {registry : Registry} (leaves : registry.LeavesProcedureNames)

include leaves

theorem Tree.calls_no_procedure_of_side_effect_free {tree : Tree}
    (free : tree.isSideEffectFree registry = true) : tree.CallsNoProcedure registry := by
  apply calls_only_of_side_effect_free free
  unfold isSideEffectFree at free
  rw [List.all_eq_true] at free ⊢
  intro name called
  have allowed := free name called
  unfold admitsName
  cases special : SpecialForm.ofName? name with
  | some form => rfl
  | none =>
      rw [special, Option.any_none, Bool.or_false] at allowed
      cases named : isProcedureName name with
      | true =>
          rw [leaves name named] at allowed
          cases allowed
      | false => rfl

theorem analyzed_calls_no_procedure {name : String} {params : List Tree} {body : Tree}
    {template : Template}
    (analyzed : (Definition.analyze registry name params body).1 = .inlinable template) :
    template.CallsNoProcedure registry := by
  obtain ⟨expression, -, described⟩ := analyze_inlinable analyzed
  refine ⟨?_, fun slot member default given => ?_⟩
  · rw [described.body]
    exact (Tree.calls_no_procedure_of_side_effect_free leaves described.quiet).fresh_copy
  · obtain ⟨node, -, made⟩ := slot_of_node described.slots member
    obtain ⟨value, constant⟩ := slot_default_literal made given
    rcases default with ⟨payload, position, optimized, facts, children⟩
    subst constant
    exact .literal _ _ _ _ _

theorem Template.CallsNoProcedure.instantiate {template : Template}
    (direct : template.CallsNoProcedure registry) {arguments : List Tree} {position : Position}
    {replacement : Tree}
    (instantiated : template.instantiate? registry arguments position = some replacement) :
    replacement.CallsNoProcedure registry := by
  obtain ⟨accepted, bindings, bound, rfl⟩ := instantiate_eq_some instantiated
  apply Tree.CallsOnly.place_at
  apply direct.body.fresh_copy.substitute
  exact accepted_bindings_hold accepted bound
    (fun _ _ => Tree.calls_no_procedure_of_side_effect_free leaves) direct.defaults

end Replacements

/-- Two actions do the same wherever the frames hold only templates of a kind, and keep it so. -/
structure Pass.Agree {Result : Type} (holds : Template → Prop) (first second : Pass Result) :
    Prop where
  same : ∀ progress, progress.scopes.Holds holds → first progress = second progress
  keeps : first.Ensures holds fun _ => True

namespace Pass.Agree

variable {Item Result : Type} {holds : Template → Prop}

/-- An action agrees with itself if it keeps the templates in the frames. -/
theorem refl {action : Pass Result} (keeps : action.Ensures holds fun _ => True) :
    Agree holds action action :=
  ⟨fun _ _ => rfl, keeps⟩

theorem still {action : Pass Result}
    (keeps : ∀ progress result after, action progress = .ok result after → after = progress) :
    Agree holds action action :=
  refl (.still fun progress result after done => ⟨trivial, keeps progress result after done⟩)

theorem pure (result : Result) :
    Agree holds (Pure.pure result : Pass Result) (Pure.pure result) :=
  refl (.pure trivial)

theorem bind {first second : Pass Item} {next next' : Item → Pass Result}
    (agree : Agree holds first second) (later : ∀ item, Agree holds (next item) (next' item)) :
    Agree holds (first >>= next) (second >>= next') := by
  refine ⟨fun progress all => ?_, agree.keeps.bind fun item _ => (later item).keeps⟩
  rw [bind_apply, bind_apply, ← agree.same progress all]
  cases outcome : first progress with
  | ok item between =>
      exact (later item).same between (agree.keeps progress item between all outcome).2
  | error error between => rfl

theorem with_frame {first second : Pass Result} (agree : Agree holds first second)
    (kind : FrameKind) : Agree holds (withFrame kind first) (withFrame kind second) := by
  refine ⟨fun progress all => ?_, agree.keeps.with_frame kind⟩
  unfold withFrame
  rw [agree.same ⟨progress.scopes.push kind, progress.store⟩ (all.push kind)]

end Pass.Agree

section Steps

variable {optimizer : Optimizer} {holds : Template → Prop}
  {revisit revisit' : Option (Tree → Pass Tree)} {nodes : List Tree}

theorem check_arity_agrees (name : String) (arity : Arity) (node : Tree) :
    Pass.Agree holds (checkArity name arity node) (checkArity name arity node) :=
  .still fun _ _ _ done => (check_arity_ok done).2

theorem check_assignment_agrees (children : List Tree) :
    Pass.Agree holds (checkAssignment children) (checkAssignment children) := by
  refine .still fun progress result after done => ?_
  cases children with
  | nil =>
      cases done
      rfl
  | cons first rest => exact (check_assignment_ok done).2

theorem fold_call_agrees (name : String) (node : Tree) :
    Pass.Agree holds (optimizer.foldCall name node) (optimizer.foldCall name node) := by
  refine .refl fun progress result after all done => ⟨trivial, ?_⟩
  obtain ⟨-, -, -, ⟨-, rfl⟩ | ⟨-, -, -, rfl, -⟩⟩ := fold_call_ok _ done
  · exact all
  · exact all

theorem record_definition_agrees
    (records : ∀ name params body template,
      (Definition.analyze optimizer.registry name params body).1 = .inlinable template →
        holds template)
    (placement : Placement) (node : Tree) :
    Pass.Agree holds (optimizer.recordDefinition placement node)
      (optimizer.recordDefinition placement node) := by
  refine .refl fun progress result after all done => ⟨trivial, ?_⟩
  obtain ⟨-, same⟩ | ⟨nameNode, name, parts, parts', definition, -, -, same, analysis⟩ :=
    record_definition_cases optimizer placement node progress
  · rw [same] at done
    cases done
    exact all
  · rw [same] at done
    cases done
    refine all.define name (fun template made => ?_) placement
    obtain ⟨-, -, rfl⟩ | ⟨params, body, -, rfl, -⟩ := analysis
    · cases made
    · exact records name params body template made

abbrev VisitsAgree (optimizer : Optimizer) (holds : Template → Prop)
    (revisit revisit' : Option (Tree → Pass Tree)) (tree : Tree) : Prop :=
  Pass.Agree holds (optimizer.visit revisit tree) (optimizer.visit revisit' tree)

/-- A settled node hides what it defines, and a leaf is only settled. -/
theorem simple_agrees {node : Tree}
    (simple : node.optimized = true ∨ node.functionName? = none) :
    VisitsAgree optimizer holds revisit revisit' node := by
  cases settled : node.optimized with
  | true =>
      refine ⟨fun progress _ => ?_, fun progress result after all done => ⟨trivial, ?_⟩⟩
      · rw [visit_settled _ _ settled, visit_settled _ _ settled]
      · rw [visit_settled _ _ settled] at done
        cases done
        exact all.hide_all node.definitions
  | false =>
      have leaf := simple.resolve_left (by simp [settled])
      refine ⟨fun progress _ => ?_, fun progress result after all done => ⟨trivial, ?_⟩⟩
      · rw [visit_leaf _ _ settled leaf, visit_leaf _ _ settled leaf]
      · rw [visit_leaf _ _ settled leaf] at done
        cases done
        exact all

theorem visit_all_agrees
    (agree : ∀ node ∈ nodes, VisitsAgree optimizer holds revisit revisit' node) :
    Pass.Agree holds (optimizer.visitAll revisit nodes) (optimizer.visitAll revisit' nodes) := by
  induction nodes with
  | nil => exact .pure []
  | cons node rest induction =>
      rw [List.forall_mem_cons] at agree
      rw [Optimizer.visitAll, Optimizer.visitAll]
      exact agree.1.bind fun node' => (induction agree.2).bind fun rest' => .pure _

theorem visit_branches_agrees : (nodes : List Tree) →
    (∀ node ∈ nodes, VisitsAgree optimizer holds revisit revisit' node) →
    Pass.Agree holds (optimizer.visitBranches revisit nodes)
      (optimizer.visitBranches revisit' nodes)
  | [], _ => .pure []
  | [otherwise], agree => by
      rw [Optimizer.visitBranches, Optimizer.visitBranches]
      exact (agree otherwise (by simp)).bind fun branch => .pure _
  | condition :: branch :: rest, agree => by
      rw [List.forall_mem_cons, List.forall_mem_cons] at agree
      obtain ⟨first, second, others⟩ := agree
      have later := visit_branches_agrees rest others
      rw [Optimizer.visitBranches, Optimizer.visitBranches]
      refine first.bind fun condition' => ?_
      cases optimizer.decide? condition' with
      | none => exact second.bind fun branch' => later.bind fun rest' => .pure _
      | some truth =>
          cases truth with
          | true => exact second.bind fun branch' => .pure _
          | false => exact later

theorem visit_parts_agrees : (nodes : List Tree) →
    (∀ node ∈ nodes, VisitsAgree optimizer holds revisit revisit' node) →
    Pass.Agree holds (optimizer.visitParts revisit nodes) (optimizer.visitParts revisit' nodes)
  | [], _ => .pure []
  | [body], agree => by
      rw [Optimizer.visitParts, Optimizer.visitParts]
      exact ((agree body (by simp)).with_frame .procedure).bind fun body' => .pure _
  | param :: next :: rest, agree => by
      rw [List.forall_mem_cons] at agree
      have checked : Pass.Agree holds (checkParameter param) (checkParameter param) :=
        .still fun _ _ _ done => (check_parameter_ok done).2
      rw [Optimizer.visitParts, Optimizer.visitParts]
      exact checked.bind fun _ => agree.1.bind fun param' =>
        (visit_parts_agrees (next :: rest) agree.2).bind fun rest' => .pure _

theorem visit_definition_agrees
    (agree : ∀ node ∈ nodes, VisitsAgree optimizer holds revisit revisit' node) :
    Pass.Agree holds (optimizer.visitDefinition revisit nodes)
      (optimizer.visitDefinition revisit' nodes) := by
  cases nodes with
  | nil => exact .pure []
  | cons nameNode rest =>
      rw [List.forall_mem_cons] at agree
      have normalized : Pass.Agree holds (normalizeName nameNode) (normalizeName nameNode) := by
        refine .still fun progress result after done => ?_
        obtain ⟨-, -, -, -, rfl⟩ := normalize_name_ok done
        rfl
      rw [Optimizer.visitDefinition, Optimizer.visitDefinition]
      exact normalized.bind fun name => (visit_parts_agrees rest agree.2).bind fun rest' => .pure _

variable (records : ∀ name params body template,
  (Definition.analyze optimizer.registry name params body).1 = .inlinable template →
    holds template)

include records

theorem visit_statements_agrees
    (agree : ∀ node ∈ nodes, VisitsAgree optimizer holds revisit revisit' node)
    (below : ∀ node ∈ nodes, node.functionName? ≠ none → ∀ child ∈ node.children,
      VisitsAgree optimizer holds revisit revisit' child) :
    Pass.Agree holds (optimizer.visitStatements revisit nodes)
      (optimizer.visitStatements revisit' nodes) := by
  induction nodes with
  | nil => exact .pure []
  | cons node rest induction =>
      rw [List.forall_mem_cons] at agree below
      have others := induction agree.2 below.2
      by_cases defines : node.specialForm? = some .procedure
      · rcases node with ⟨payload, position, optimized, facts, children⟩
        cases payload with
        | literal value => cases defines
        | «variable» name => cases defines
        | call name =>
            cases optimized with
            | true =>
                simp only [Optimizer.visitStatements, defines, if_true]
                exact (record_definition_agrees records .direct _).bind fun node' =>
                  others.bind fun rest' => .pure _
            | false =>
                rw [visit_definition_statement_eq _ _ defines,
                  visit_definition_statement_eq _ _ defines]
                exact (check_arity_agrees _ _ _).bind fun _ =>
                  (visit_definition_agrees (below.1 (Option.some_ne_none name))).bind fun parts =>
                    (record_definition_agrees records .direct _).bind fun node' =>
                      others.bind fun rest' => .pure _
      · rw [visit_statement_eq _ _ defines, visit_statement_eq _ _ defines]
        exact agree.1.bind fun node' => others.bind fun rest' => .pure _

theorem form_agrees {node : Tree} (form : SpecialForm)
    (agree : ∀ child ∈ node.children, VisitsAgree optimizer holds revisit revisit' child)
    (below : ∀ child ∈ node.children, child.functionName? ≠ none → ∀ inner ∈ child.children,
      VisitsAgree optimizer holds revisit revisit' inner) :
    Pass.Agree holds (visitForm optimizer revisit node form)
      (visitForm optimizer revisit' node form) := by
  have passing := visit_all_agrees agree
  cases form with
  | autoConcat | sequence =>
      exact ((visit_statements_agrees records agree below).with_frame .sequence).bind
        fun statements => .pure _
  | conditional | choice =>
      exact (visit_branches_agrees node.children agree).bind fun branches => .pure _
  | procedure =>
      exact (visit_definition_agrees agree).bind fun parts =>
        record_definition_agrees records .nested _
  | assignment =>
      exact (check_assignment_agrees node.children).bind fun _ =>
        passing.bind fun children' => .pure _
  | closure => exact (passing.with_frame .closure).bind fun children' => .pure _
  | returning | execution => exact passing.bind fun children' => .pure _

/-- Visits agree on a tree that calls no procedure, and on any tree if they agree on calls. -/
theorem visit_agrees (tree : Tree)
    (calls : tree.CallsNoProcedure optimizer.registry ∨ ∀ name node,
      Pass.Agree holds (optimizer.inlineCall revisit name node)
        (optimizer.inlineCall revisit' name node)) :
    VisitsAgree optimizer holds revisit revisit' tree ∧
      (tree.functionName? ≠ none → ∀ child ∈ tree.children,
        VisitsAgree optimizer holds revisit revisit' child) := by
  induction tree using Tree.induction with
  | node payload position optimized facts children induction =>
      cases payload with
      | literal value => exact ⟨simple_agrees (.inr rfl), fun call => absurd rfl call⟩
      | «variable» name => exact ⟨simple_agrees (.inr rfl), fun call => absurd rfl call⟩
      | call name =>
          have inside : ∀ child ∈ children, _ := fun child member =>
            induction child member (calls.imp_left fun direct => direct.call_children child member)
          have agree := fun child member => (inside child member).1
          have below := fun child member => (inside child member).2
          refine ⟨?_, fun _ => agree⟩
          cases optimized with
          | true => exact simple_agrees (.inl rfl)
          | false =>
              cases special : SpecialForm.ofName? name with
              | some form =>
                  rw [VisitsAgree, visit_form_eq _ _ special, visit_form_eq _ _ special]
                  exact (check_arity_agrees _ _ _).bind fun _ =>
                    (form_agrees records form agree below).bind fun out => .pure _
              | none =>
                  rw [VisitsAgree, visit_call_eq _ _ special, visit_call_eq _ _ special]
                  refine (visit_all_agrees agree).bind fun children' => ?_
                  refine Pass.Agree.bind ?_ fun out => .pure _
                  unfold visitCall
                  split
                  · rename_i named
                    obtain direct | agreed := calls
                    · rw [direct.calls_no_procedure special] at named
                      cases named
                    · exact agreed name _
                  · exact fold_call_agrees name _

end Steps

section Runs

variable (optimizer : Optimizer)

/-- The optimizer with a visit of its own for replacements, and with another for those in them, down
to the given one. -/
def unfoldedVisit (bottom : Tree → Pass Tree) : Nat → Tree → Pass Tree
  | 0 => bottom
  | levels + 1 => optimizer.visit (some (unfoldedVisit bottom levels))

variable {optimizer}

/-- A tree that calls no procedure is only descended into. -/
theorem visit_descends (self : Tree → Pass Tree) {tree : Tree}
    (direct : tree.CallsNoProcedure optimizer.registry) :
    optimizer.visit (some self) tree = optimizer.visit none tree := by
  funext progress
  have anything : progress.scopes.Holds fun _ => True := fun _ _ _ _ _ => trivial
  exact (visit_agrees (fun _ _ _ _ _ => trivial) tree (.inl direct)).1.same progress anything

variable (leaves : optimizer.registry.LeavesProcedureNames)

include leaves

/-- Replacing a call comes to the same if visiting the replacement does. -/
theorem inline_call_agrees {first second : Tree → Pass Tree}
    (again : ∀ tree, tree.CallsNoProcedure optimizer.registry →
      Pass.Agree (Template.CallsNoProcedure optimizer.registry) (first tree) (second tree))
    (name : String) (node : Tree) :
    Pass.Agree (Template.CallsNoProcedure optimizer.registry)
      (optimizer.inlineCall (some first) name node)
      (optimizer.inlineCall (some second) name node) := by
  constructor
  · intro progress all
    unfold Optimizer.inlineCall
    rw [bind_of_ok (get_apply progress), bind_of_ok (get_apply progress)]
    cases optimizer.options.inlineProcedures with
    | false => rfl
    | true =>
        cases found : progress.scopes.find? name with
        | none => rfl
        | some definition =>
            cases definition with
            | hidden => rfl
            | inlinable template =>
                have direct := all.of_known (Scopes.known_eq_some.mpr found)
                dsimp only
                cases instantiated : template.instantiate? optimizer.registry node.children
                    node.position with
                | none => rfl
                | some tree =>
                    exact (again tree (direct.instantiate leaves instantiated)).same progress all
  · intro progress result after all done
    obtain ⟨template, self, tree, -, found, same, instantiated, visited⟩ | ⟨rfl, -⟩ :=
      inline_call_ok _ _ done
    · cases same
      have direct := all.of_known (Scopes.known_eq_some.mpr found)
      exact (again tree (direct.instantiate leaves instantiated)).keeps _ _ _ all visited
    · exact ⟨trivial, all⟩

/-- Whatever visits what replaces a call in a replacement: there is no such call. -/
theorem two_visits_agree (first second : Tree → Pass Tree) (tree : Tree) :
    VisitsAgree optimizer (Template.CallsNoProcedure optimizer.registry)
      (some (optimizer.visit (some first))) (some (optimizer.visit (some second))) tree := by
  have records : ∀ name params body template,
      (Definition.analyze optimizer.registry name params body).1 = .inlinable template →
        template.CallsNoProcedure optimizer.registry :=
    fun _ _ _ _ analyzed => analyzed_calls_no_procedure leaves analyzed
  refine (visit_agrees records tree (.inr ?_)).1
  exact inline_call_agrees leaves fun inner direct => (visit_agrees records inner (.inl direct)).1

/-- Optimizing terminates. What replaces a call is only descended into, whoever would visit what
replaces the calls in it. So a run is at most two visits deep, whatever stands at the bottom of
them, and the optimizer visits replacements as it visits everything else. -/
theorem optimizing_terminates (tree : Tree) :
    (∀ name params body template arguments position replacement,
      (Definition.analyze optimizer.registry name params body).1 = .inlinable template →
      template.instantiate? optimizer.registry arguments position = some replacement →
      ∀ self, optimizer.visit (some self) replacement = optimizer.visit none replacement) ∧
    (∀ store bottom levels, 2 ≤ levels →
      runVisit (unfoldedVisit optimizer bottom levels) tree store =
        optimizer.optimize tree store) ∧
    ∀ progress, progress.scopes.Holds (Template.CallsNoProcedure optimizer.registry) →
      optimizer.pass Optimizer.maxInlining tree progress =
        optimizer.visit (some (optimizer.pass Optimizer.maxInlining)) tree progress := by
  have agree := fun first second => two_visits_agree leaves first second tree
  refine ⟨?_, fun store bottom levels enough => ?_, fun progress all => ?_⟩
  · intro name params body template arguments position replacement analyzed made self
    exact visit_descends self
      ((analyzed_calls_no_procedure leaves analyzed).instantiate leaves made)
  · obtain ⟨more, rfl⟩ := Nat.exists_eq_add_of_le' enough
    have nothing : Scopes.initial.Holds (Template.CallsNoProcedure optimizer.registry) := by
      intro frame member name template found
      rw [List.mem_singleton.mp member] at found
      cases found
    have same : unfoldedVisit optimizer bottom (more + 2) tree ⟨Scopes.initial, store⟩ =
        optimizer.pass Optimizer.maxInlining tree ⟨Scopes.initial, store⟩ :=
      (agree (unfoldedVisit optimizer bottom more)
        (optimizer.pass (Optimizer.maxInlining - 2))).same ⟨Scopes.initial, store⟩ nothing
    rw [Optimizer.optimize, runVisit, runVisit, same]
  · exact (agree (optimizer.pass (Optimizer.maxInlining - 2))
      (optimizer.pass (Optimizer.maxInlining - 1))).same progress all

end Runs

/-- A script with two procedures that call each other, and with one that can be replaced. -/
def pingPong : Tree :=
  let calling (name callee : String) : Tree := .call SpecialForm.procedure.name
    [.literal (.string name) .unknown,
      .call SpecialForm.returning.name [.call callee [] .unknown] .unknown] .unknown
  let parameter : Tree := .node (.variable "@x") [] .unknown
  let twice : Tree := .call SpecialForm.procedure.name
    [.literal (.string "_twice") .unknown, parameter,
      .call SpecialForm.returning.name [.call "add" [parameter, parameter] .unknown] .unknown]
    .unknown
  .call SpecialForm.sequence.name
    [calling "_ping" "_pong", calling "_pong" "_ping", twice, .call "_ping" [] .unknown,
      .call "_twice" [.call "_twice" [.literal (.int 3) .unknown] .unknown] .unknown] .unknown

theorem optimizing_terminates_of_ping_pong :
    ∃ tree' store', runVisit (unfoldedVisit ⟨Prelude.registry, {}⟩
        (fun tree => throw (.unknownFunction "" tree.position)) 2) pingPong {} = .ok tree' store' ∧
      tree'.children.getLast?.map Tree.text = some "12" := by
  have apart := Registry.of_list_apart Prelude.builtins_reliable
  have leaves : Prelude.registry.LeavesProcedureNames := by
    intro name named
    rw [← Bool.not_eq_true]
    intro isPure
    rw [(apart name isPure).2] at named
    cases named
  have terminates := @optimizing_terminates ⟨Prelude.registry, {}⟩ leaves pingPong
  rw [terminates.2.1 {} _ 2 (Nat.le_refl 2)]
  exact ⟨_, _, rfl, by decide +kernel⟩

end TreeScript
