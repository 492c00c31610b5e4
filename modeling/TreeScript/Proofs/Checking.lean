import TreeScript.Proofs.Code
import TreeScript.Proofs.Contracts
/-!
# What the optimizer checks

Every call that is left in an optimized script names a function that is registered and has as many
arguments as that takes, every special form has as many as it takes, and the special forms that
look at the shape of their first argument find what they need. The children of a leaf do not count,
since nothing evaluates them.

An expression that replaces a call is made of a body that has been checked and of arguments that
have been checked, but to put one into the other may spoil the shape of a special form. That is why
it is visited again, and why what a visit may start from is less than what it ends with.
-/

namespace TreeScript

set_option autoImplicit false

namespace Tree

/-- Evaluating the tree finds every function, every number of arguments and every shape in order.
Its literals hold no closures. -/
inductive Checked (registry : Registry) : Tree → Prop where
  | literal {value : Value} (position : Position) (optimized : Bool) (facts : Facts)
      (children : List Tree) : value.Within .nothing →
      Checked registry ⟨.literal value, position, optimized, facts, children⟩
  | «variable» (name : String) (position : Position) (optimized : Bool) (facts : Facts)
      (children : List Tree) :
      Checked registry ⟨.variable name, position, optimized, facts, children⟩
  | form {name : String} {kind : SpecialForm} (position : Position) (optimized : Bool)
      (facts : Facts) {children : List Tree} : SpecialForm.ofName? name = some kind →
      kind.arity.accepts children.length = true → kind.Fits children →
      (∀ child ∈ children, Checked registry child) →
      Checked registry ⟨.call name, position, optimized, facts, children⟩
  | procedure {name : String} (position : Position) (optimized : Bool) (facts : Facts)
      {children : List Tree} : SpecialForm.ofName? name = none → isProcedureName name = true →
      (∀ child ∈ children, Checked registry child) →
      Checked registry ⟨.call name, position, optimized, facts, children⟩
  | function {name : String} {builtin : Builtin} (position : Position) (optimized : Bool)
      (facts : Facts) {children : List Tree} : SpecialForm.ofName? name = none →
      isProcedureName name = false → registry.find? name = some builtin →
      builtin.arity.accepts children.length = true →
      (∀ child ∈ children, Checked registry child) →
      Checked registry ⟨.call name, position, optimized, facts, children⟩

/-- What may be visited: nodes that are settled have been checked before. -/
inductive Checkable (registry : Registry) : Tree → Prop where
  | checked {tree : Tree} : tree.Checked registry → Checkable registry tree
  | call (name : String) (position : Position) (facts : Facts) {children : List Tree} :
      (∀ child ∈ children, Checkable registry child) →
      Checkable registry ⟨.call name, position, false, facts, children⟩

namespace Checked

variable {registry : Registry} {tree : Tree}

/-- Only the payload and the children of a node matter. -/
theorem notes {payload : Payload} {position : Position} {optimized : Bool} {facts : Facts}
    {children : List Tree}
    (checked : Checked registry ⟨payload, position, optimized, facts, children⟩)
    (position' : Position) (optimized' : Bool) (facts' : Facts) :
    Checked registry ⟨payload, position', optimized', facts', children⟩ := by
  cases checked with
  | literal _ _ _ _ plain => exact .literal _ _ _ _ plain
  | «variable» => exact .variable _ _ _ _ _
  | form _ _ _ special accepted fits below => exact .form _ _ _ special accepted fits below
  | procedure _ _ _ plain named below => exact .procedure _ _ _ plain named below
  | function _ _ _ plain named found accepted below =>
      exact .function _ _ _ plain named found accepted below

theorem settle (checked : tree.Checked registry) (flag : Bool) :
    (tree.settle flag).Checked registry := by
  rcases tree with ⟨payload, position, optimized, facts, children⟩
  exact checked.notes position flag facts

theorem remember (checked : tree.Checked registry) (kind : FactKind) :
    (tree.remember kind).Checked registry := by
  rcases tree with ⟨payload, position, optimized, facts, children⟩
  unfold Tree.remember ask
  split
  · exact checked
  · exact checked.notes _ _ _

theorem inside {name : String} {position : Position} {optimized : Bool} {facts : Facts}
    {children : List Tree}
    (checked : Checked registry ⟨.call name, position, optimized, facts, children⟩) :
    ∀ child ∈ children, child.Checked registry := by
  cases checked with
  | form _ _ _ _ _ _ below => exact below
  | procedure _ _ _ _ _ below => exact below
  | function _ _ _ _ _ _ _ below => exact below

theorem call_inside {name : String} (checked : tree.Checked registry)
    (called : tree.payload = .call name) : ∀ child ∈ tree.children, child.Checked registry := by
  rcases tree with ⟨payload, position, optimized, facts, children⟩
  subst called
  exact checked.inside

theorem formed {name : String} {kind : SpecialForm} {position : Position} {optimized : Bool}
    {facts : Facts} {children : List Tree}
    (checked : Checked registry ⟨.call name, position, optimized, facts, children⟩)
    (special : SpecialForm.ofName? name = some kind) :
    kind.arity.accepts children.length = true ∧ kind.Fits children := by
  cases checked with
  | form _ _ _ special' accepted fits _ =>
      rw [special] at special'
      cases special'
      exact ⟨accepted, fits⟩
  | procedure _ _ _ plain _ _ | function _ _ _ plain _ _ _ _ =>
      rw [special] at plain
      cases plain

theorem plain {value : Value} (checked : tree.Checked registry)
    (constant : tree.value? = some value) : value.Within .nothing := by
  cases checked with
  | literal _ _ _ _ plain =>
      cases constant
      exact plain
  | _ => cases constant

theorem copy (checked : tree.Checked registry) : tree.copy.Checked registry := by
  induction checked with
  | literal _ _ _ _ plain => exact .literal _ _ _ _ plain
  | «variable» => exact .variable _ _ _ _ _
  | @form name kind position optimized facts children special accepted fits below induction =>
      rw [Tree.copy, copies_eq_map]
      refine .form _ _ _ special (by simpa using accepted) ?_ (List.forall_mem_map.mpr induction)
      cases kind with
      | assignment =>
          rcases fits with ⟨⟨_, _, _, _, _⟩, target, rest, rfl, rfl⟩
          exact ⟨_, target, _, rfl, rfl⟩
      | procedure =>
          rcases fits with ⟨⟨payload, _, _, _, parts⟩, defined, rest, rfl, named⟩
          refine ⟨_, defined, _, rfl, ?_⟩
          rw [← named, Tree.copy, copies_eq_map]
          cases payload <;> cases parts <;> rfl
      | _ => trivial
  | procedure _ _ _ plain named below induction =>
      rw [Tree.copy, copies_eq_map]
      exact .procedure _ _ _ plain named (List.forall_mem_map.mpr induction)
  | function _ _ _ plain named found accepted below induction =>
      rw [Tree.copy, copies_eq_map]
      exact .function _ _ _ plain named found (by simpa using accepted)
        (List.forall_mem_map.mpr induction)

theorem substitute {bindings : Bindings Tree} (checked : tree.Checked registry)
    (bound : ∀ name found, bindings.find? name = some found → found.Checked registry) :
    (tree.freshCopy.substitute bindings).Checkable registry := by
  induction tree using Tree.induction with
  | node payload position optimized facts children induction =>
      rw [freshCopy, freshCopies_eq_map]
      cases payload with
      | literal value =>
          simp only [Tree.substitute, Payload.variableName?, Option.bind_none]
          exact .checked (.literal _ _ _ _ (checked.plain rfl))
      | «variable» name =>
          simp only [Tree.substitute, Payload.variableName?, Option.bind_some]
          cases found : bindings.find? name with
          | none => exact .checked (.variable _ _ _ _ _)
          | some tree => exact .checked (bound name tree found).copy
      | call name =>
          simp only [Tree.substitute, Payload.variableName?, Option.bind_none]
          rw [substitute_all_eq_map]
          apply Checkable.call
          simp only [List.forall_mem_map]
          exact fun child member => induction child member (checked.inside child member)

end Checked

namespace Checkable

variable {registry : Registry} {tree : Tree}

theorem settled (checkable : tree.Checkable registry) (settled : tree.optimized = true) :
    tree.Checked registry := by
  cases checkable with
  | checked checked => exact checked
  | call => cases settled

theorem leaf (checkable : tree.Checkable registry) (leaf : tree.functionName? = none) :
    tree.Checked registry := by
  cases checkable with
  | checked checked => exact checked
  | call => cases leaf

theorem inside {name : String} {position : Position} {optimized : Bool} {facts : Facts}
    {children : List Tree}
    (checkable : Checkable registry ⟨.call name, position, optimized, facts, children⟩) :
    ∀ child ∈ children, child.Checkable registry := by
  cases checkable with
  | checked checked => exact fun child member => .checked (checked.inside child member)
  | call _ _ _ below => exact below

theorem place_at (checkable : tree.Checkable registry) (position : Position) :
    (tree.placeAt position).Checkable registry := by
  rcases tree with ⟨payload, place, optimized, facts, children⟩
  cases checkable with
  | checked checked => exact .checked (checked.notes position optimized facts)
  | call name _ _ below => exact .call name position facts below

theorem of_fresh (fresh : tree.Everywhere fun node => node.optimized = false)
    (plain : tree.Everywhere fun node => node.value?.any Value.holdsClosure = false) :
    tree.Checkable registry := by
  induction tree using Tree.induction with
  | node payload position optimized facts children induction =>
      have unsettled : optimized = false := fresh.here
      subst unsettled
      cases payload with
      | literal value =>
          exact .checked (.literal _ _ _ _ (Value.within_of_no_closure value plain.here))
      | «variable» name => exact .checked (.variable _ _ _ _ _)
      | call name =>
          exact .call name position facts fun child member =>
            induction child member (fresh.inside child member) (plain.inside child member)

end Checkable

end Tree

structure Template.Checked (registry : Registry) (template : Template) : Prop where
  body : ∃ expression : Tree, expression.Checked registry ∧ template.body = expression.freshCopy
  defaults : ∀ slot ∈ template.slots, ∀ default, slot.default = some default →
    default.Checked registry

section Templates

variable {registry : Registry} {template : Template} {params arguments : List Tree}
  {body expression : Tree} {name : String} {position : Position}

theorem Template.Checked.instantiate (checked : template.Checked registry)
    (given : ∀ argument ∈ arguments, argument.Checked registry) {replacement : Tree}
    (instantiated : template.instantiate? registry arguments position = some replacement) :
    replacement.Checkable registry := by
  obtain ⟨accepted, bindings, bound, rfl⟩ := instantiate_eq_some instantiated
  obtain ⟨expression, checkedExpression, same⟩ := checked.body
  rw [same, Tree.fresh_copy_twice]
  apply Tree.Checkable.place_at
  apply checkedExpression.substitute
  exact accepted_bindings_hold accepted bound (fun argument member _ => given argument member)
    checked.defaults

theorem analyzed_template_checked (checkedParams : ∀ param ∈ params, param.Checked registry)
    (checkedBody : body.Checked registry)
    (analyzed : (Definition.analyze registry name params body).1 = .inlinable template) :
    template.Checked registry := by
  rcases analyze_inlinable analyzed with ⟨expression, returned, described⟩
  rcases Tree.returned_eq_some returned with ⟨called, only⟩
  refine ⟨⟨expression, ?_, described.body⟩, fun slot member default given => ?_⟩
  · apply checkedBody.call_inside called
    rw [only]
    exact List.mem_singleton_self expression
  · rcases slot_of_node described.slots member with ⟨node, within, made⟩
    have below := Tree.slot_default_child made given
    have called : ∃ name, node.payload = .call name := by
      rcases slot_default_literal made given with ⟨value, -⟩
      rcases node with ⟨payload, _, _, _, _⟩
      cases payload with
      | call name => exact ⟨name, rfl⟩
      | «variable» name =>
          cases made
          cases given
      | literal value => cases made
    rcases called with ⟨name, called⟩
    exact (checkedParams node within).call_inside called default below

theorem analyzed_body_checked (checked : body.Checked registry) :
    (Definition.analyze registry name params body).2.Checked registry := by
  refine analyzed_body_keeps checked (fun kind _ kept => kept.remember kind) ?_
  intro expression returned
  obtain ⟨called, only⟩ := Tree.returned_eq_some returned
  rcases body with ⟨payload, position, optimized, facts, children⟩
  simp only at called only
  subst called only
  have special := SpecialForm.ofName?_name .returning
  refine ⟨checked.inside expression (List.mem_singleton_self expression), ?_⟩
  intro expression' facts' kept
  refine .form _ _ _ special (checked.formed special).1 trivial fun child member => ?_
  rw [List.mem_singleton.mp member]
  exact kept

end Templates

section Nodes

variable {registry : Registry} {position : Position} {statements : List Tree}

theorem splice_checked {statement : Tree} (checked : statement.Checked registry) :
    ∀ part ∈ splice statement, part.Checked registry := by
  unfold splice
  split
  · rename_i isSequence
    rcases statement with ⟨payload, position, optimized, facts, children⟩
    cases payload with
    | call name => exact checked.inside
    | _ => cases isSequence
  · intro part member
    rw [List.mem_singleton.mp member]
    exact checked

theorem collapse_checked (checked : ∀ statement ∈ statements, statement.Checked registry) :
    (collapse position statements).Checked registry := by
  match statements with
  | [] => exact .literal _ _ _ _ (.basic rfl)
  | [statement] => exact checked statement (List.mem_singleton_self statement)
  | first :: second :: rest =>
      exact .form _ _ _ (SpecialForm.ofName?_name .sequence) (by simp [SpecialForm.arity]) trivial
        checked

theorem resolve_checked {name : String} {form : SpecialForm} {facts : Facts}
    {children branches : List Tree} (special : SpecialForm.ofName? name = some form)
    (branching : form = .conditional ∨ form = .choice)
    (accepted : form.arity.accepts children.length = true)
    (checked : ∀ branch ∈ branches, branch.Checked registry)
    (shorter : branches.length ≤ children.length) :
    (resolve ⟨.call name, position, false, facts, children⟩ branches).Checked registry := by
  match branches with
  | [] => exact .literal _ _ _ _ (.basic rfl)
  | [branch] => exact checked branch (List.mem_singleton_self branch)
  | first :: second :: rest =>
      refine .form _ _ _ special ?_ ?_ checked
      · rcases branching with rfl | rfl <;> simp [SpecialForm.arity] at accepted shorter ⊢
        omega
      · rcases branching with rfl | rfl <;> trivial

theorem definition_fits {defined : String} (place : Position) (parts : List Tree)
    (valid : Tree.isProcedureName defined = true) :
    SpecialForm.procedure.Fits ((Tree.literal (.string defined) place).settle true :: parts) :=
  ⟨_, defined, parts, rfl, Option.filter_eq_some_iff.mpr ⟨rfl, valid⟩⟩

/-- What an analysis notes on a definition does not matter. -/
theorem recorded_checked {name defined : String} {facts : Facts} {nameNode body : Tree}
    {params : List Tree}
    (checked : Tree.Checked registry
      ⟨.call name, position, true, facts, nameNode :: (params ++ [body])⟩)
    (special : SpecialForm.ofName? name = some .procedure) :
    Tree.Checked registry ⟨.call name, position, true, facts,
      nameNode :: (params ++ [(Definition.analyze registry defined params body).2])⟩ ∧
    ∀ template, (Definition.analyze registry defined params body).1 = .inlinable template →
      template.Checked registry := by
  obtain ⟨other, written, parts, same, named⟩ := (checked.formed special).2
  cases same
  have inside := checked.inside
  rw [List.forall_mem_cons, List.forall_mem_append] at inside
  obtain ⟨checkedName, checkedParams, last⟩ := inside
  have checkedBody := last body (List.mem_singleton_self body)
  refine ⟨.form _ _ _ special (by simp [SpecialForm.arity]) ⟨_, written, _, rfl, named⟩ ?_,
    fun template analyzed => analyzed_template_checked checkedParams checkedBody analyzed⟩
  rw [List.forall_mem_cons, List.forall_mem_append]
  refine ⟨checkedName, checkedParams, fun part member => ?_⟩
  rw [List.mem_singleton.mp member]
  exact analyzed_body_checked checkedBody

/-- What is folded comes from literals without closures, and so holds none. -/
theorem folded_checked (brings : registry.BringsNoCode) {name : String} {builtin : Builtin}
    {children : List Tree} {value : Value} {catalogue : Catalogue} {store store' : Store}
    (found : registry.find? name = some builtin)
    (checked : ∀ child ∈ children, child.Checked registry)
    (ran : builtin.run ⟨position, none, catalogue⟩ (children.filterMap Tree.value?) store =
      .ok value store') :
    ((Tree.literal value position).settle true).Checked registry := by
  have given : ∀ argument ∈ children.filterMap Tree.value?, argument.Within .nothing := by
    intro argument member
    obtain ⟨child, within, constant⟩ := List.mem_filterMap.mp member
    exact (checked child within).plain constant
  have nowhere : store.Backs .nothing := fun _ none => none.elim
  have brought := brings name builtin found .nothing _ _ none _ _ _ _ nofun given nowhere ran
  exact .literal _ _ _ _ brought.1

end Nodes

/-- What the optimizer leaves has been checked, provided that no function makes closures. -/
def checkingContract (optimizer : Optimizer) (brings : optimizer.registry.BringsNoCode) :
    Contract optimizer where
  admits := Tree.Checkable optimizer.registry
  yields := Tree.Checked optimizer.registry
  trusts := Template.Checked optimizer.registry
  inside admitted := admitted.inside
  settled flag admitted := admitted.settled flag
  leaf _ isLeaf admitted := (admitted.leaf isLeaf).settle true
  settle checked := checked.settle true
  remember kind checked := checked.remember kind
  sequence position checked := by
    apply Tree.Checked.settle
    refine collapse_checked fun part member => ?_
    obtain ⟨statement, within, spliced⟩ := List.mem_flatMap.mp (mem_drop_voids member)
    exact splice_checked (checked statement within) part spliced
  branching _ _ special branching accepted shorter _ checked :=
    (resolve_checked special branching accepted checked shorter).settle true
  keeping position special _ accepted fits checked :=
    .form position true {} special accepted fits checked
  definition place _ special valid checked _ := by
    refine .form _ _ _ special (by simp [SpecialForm.arity]) (definition_fits place _ valid) ?_
    exact List.forall_mem_cons.mpr ⟨.literal _ _ _ _ (.basic rfl), checked⟩
  recorded checked special _ := recorded_checked checked special
  replaced trusted given instantiated := trusted.instantiate given instantiated
  procedureCall position plain named checked := .procedure position true {} plain named checked
  functionCall position plain unnamed found kept checked :=
    .function position true {} plain unnamed found kept.accepted checked
  folded found checked ran := folded_checked brings found checked ran

theorem run_checks {optimizer : Optimizer} (brings : optimizer.registry.BringsNoCode)
    {depth : Nat} {tree tree' : Tree} (given : tree.Checkable optimizer.registry)
    {store store' : Store}
    (done : runVisit (optimizer.pass depth) tree store = .ok tree' store') :
    tree'.Checked optimizer.registry :=
  (checkingContract optimizer brings).run_yields given done

end TreeScript
