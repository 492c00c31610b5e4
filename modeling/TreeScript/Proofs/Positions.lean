import Mathlib.Data.List.Flatten
import TreeScript.Proofs.Contracts
import TreeScript.Proofs.Shapes
/-!
# Where the nodes of an optimized script stand

The optimizer makes nodes of its own: voids for branches that are gone, literals for calls that are
folded, sequences of other statements, names in normal form and expressions in the place of calls.
Each of them is put where some node of the script stands, and each error names such a place.

Main statement: all positions in an optimized script, and those of errors, are positions in the
script. Unless calls are replaced, those that are left also stand in the order in which they stood,
none of them more often than before.
-/

namespace TreeScript

set_option autoImplicit false

namespace Tree

mutual

/-- The positions of the nodes of a tree, a node before its children. -/
def positions : Tree → List Position
  | ⟨_, position, _, _, children⟩ => position :: childPositions children

def childPositions : List Tree → List Position
  | [] => []
  | child :: rest => positions child ++ childPositions rest

end

theorem child_positions_eq_flatMap (children : List Tree) :
    childPositions children = children.flatMap positions := by
  induction children with
  | nil => rfl
  | cons child rest induction => rw [childPositions, List.flatMap_cons, induction]

theorem positions_eq (tree : Tree) :
    tree.positions = tree.position :: tree.children.flatMap positions := by
  rcases tree with ⟨payload, position, optimized, facts, children⟩
  rw [positions, child_positions_eq_flatMap]

theorem positions_settle (tree : Tree) (flag : Bool) :
    (tree.settle flag).positions = tree.positions := by
  rw [positions_eq, positions_eq, settle]

theorem positions_remember (kind : FactKind) (tree : Tree) :
    (tree.remember kind).positions = tree.positions := by
  rw [positions_eq, positions_eq]
  unfold remember ask
  split <;> rfl

theorem positions_fresh_copy (tree : Tree) : tree.freshCopy.positions = tree.positions := by
  induction tree using Tree.induction with
  | node payload position optimized facts children induction =>
      rw [freshCopy, freshCopies_eq_map, positions_eq, positions_eq, List.flatMap_map]
      exact congrArg _ (List.flatMap_congr induction)

theorem positions_copy (tree : Tree) : tree.copy.positions = tree.positions := by
  induction tree using Tree.induction with
  | node payload position optimized facts children induction =>
      rw [copy, copies_eq_map, positions_eq, positions_eq, List.flatMap_map]
      exact congrArg _ (List.flatMap_congr induction)

def Within (known : Position → Prop) (tree : Tree) : Prop :=
  ∀ position ∈ tree.positions, known position

section Within

variable {known : Position → Prop} {tree : Tree}

theorem within_iff : tree.Within known ↔
    known tree.position ∧ ∀ child ∈ tree.children, child.Within known := by
  simp only [Within, positions_eq tree, List.forall_mem_cons, List.mem_flatMap,
    forall_exists_index, and_imp]
  exact and_congr_right fun _ => ⟨fun below child member position within =>
    below position child member within, fun below position child member within =>
    below child member position within⟩

theorem Within.of_positions {other : Tree} (within : tree.Within known)
    (same : other.positions = tree.positions) : other.Within known := by
  unfold Within
  rw [same]
  exact within

theorem Within.position (within : tree.Within known) : known tree.position :=
  (within_iff.mp within).1

theorem Within.inside (within : tree.Within known) :
    ∀ child ∈ tree.children, child.Within known :=
  (within_iff.mp within).2

theorem Within.substitute {bindings : Bindings Tree} (within : tree.Within known)
    (bound : ∀ name found, bindings.find? name = some found → found.Within known) :
    (tree.substitute bindings).Within known := by
  induction tree using Tree.induction with
  | node payload position optimized facts children induction =>
      rw [Tree.substitute, substitute_all_eq_map]
      split
      · rename_i found replaced
        obtain ⟨name, -, located⟩ := Option.bind_eq_some_iff.mp replaced
        exact (bound name found located).of_positions (positions_copy found)
      · rw [within_iff]
        refine ⟨within.position, List.forall_mem_map.mpr fun child member => ?_⟩
        exact induction child member (within.inside child member)

end Within

end Tree

section Sublists

theorem drop_voids_sublist (statements : List Tree) :
    (dropVoids statements).Sublist statements := by
  fun_induction dropVoids statements with
  | case1 => exact .slnil
  | case2 last => exact .refl _
  | case3 _ _ _ _ induction => exact induction.cons _
  | case4 _ _ _ _ induction => exact induction.cons_cons _

theorem splice_sublist (statement : Tree) :
    ((splice statement).flatMap Tree.positions).Sublist statement.positions := by
  unfold splice
  split
  · rw [Tree.positions_eq statement]
    exact List.sublist_cons_self _ _
  · rw [List.flatMap_singleton]

theorem collapse_sublist (position : Position) (statements : List Tree) :
    (collapse position statements).positions.Sublist
      (position :: statements.flatMap Tree.positions) := by
  match statements with
  | [] => exact .refl _
  | [statement] =>
      rw [List.flatMap_singleton]
      exact List.sublist_cons_self _ _
  | first :: second :: rest =>
      rw [Tree.positions_eq]
      exact .refl _

theorem resolve_sublist (node : Tree) (branches : List Tree) :
    (resolve node branches).positions.Sublist
      (node.position :: branches.flatMap Tree.positions) := by
  match branches with
  | [] => exact .refl _
  | [branch] =>
      rw [List.flatMap_singleton]
      exact List.sublist_cons_self _ _
  | first :: second :: rest =>
      rw [Tree.positions_eq]
      exact .refl _

end Sublists

structure Template.Placed (known : Position → Prop) (template : Template) : Prop where
  body : template.body.Within known
  defaults : ∀ slot ∈ template.slots, ∀ default, slot.default = some default →
    default.Within known

section Templates

variable {known : Position → Prop} {registry : Registry} {name : String} {params : List Tree}
  {body : Tree} {template : Template}

theorem analyzed_positions (registry : Registry) (name : String) (params : List Tree)
    (body : Tree) :
    (Definition.analyze registry name params body).2.positions = body.positions := by
  obtain same | same | ⟨expression, expression', returned, noted, same⟩ :=
    analyzed_body registry name params body
  · rw [same]
  · rw [same, Tree.positions_remember]
  · have kept : expression'.positions = expression.positions := by
      obtain rfl | rfl := noted <;> simp only [Tree.positions_remember]
    have place : (body.remember .functionNames).position = body.position := by
      unfold Tree.remember Tree.ask
      split <;> rfl
    rw [same, Tree.positions_eq, Tree.positions_eq body, (Tree.returned_eq_some returned).2]
    simp only [List.flatMap_singleton, kept, place]

theorem analyzed_placed (params_within : ∀ param ∈ params, param.Within known)
    (within : body.Within known)
    (analyzed : (Definition.analyze registry name params body).1 = .inlinable template) :
    template.Placed known := by
  obtain ⟨expression, returned, described⟩ := analyze_inlinable analyzed
  have inside : expression.Within known := by
    apply within.inside
    rw [(Tree.returned_eq_some returned).2]
    exact List.mem_singleton_self _
  constructor
  · rw [described.body]
    exact inside.of_positions (Tree.positions_fresh_copy _)
  · intro slot member default given
    obtain ⟨param, among, made⟩ := slot_of_node described.slots member
    exact (params_within param among).inside default (Tree.slot_default_child made given)

theorem replacement_within {arguments : List Tree} {position : Position} {replacement : Tree}
    (placed : template.Placed known) (given : ∀ argument ∈ arguments, argument.Within known)
    (here : known position)
    (instantiated : template.instantiate? registry arguments position = some replacement) :
    replacement.Within known := by
  obtain ⟨accepted, bindings, bound, rfl⟩ := instantiate_eq_some instantiated
  have body : template.body.freshCopy.Within known :=
    placed.body.of_positions (Tree.positions_fresh_copy _)
  have substituted := body.substitute fun name tree found =>
    accepted_bindings_hold accepted bound (fun argument member _ => given argument member)
      placed.defaults name tree found
  exact Tree.within_iff.mpr ⟨here, substituted.inside⟩

theorem inspect_positions (registry : Registry) (arguments : List Tree) :
    (Template.inspect registry arguments).flatMap Tree.positions =
      arguments.flatMap Tree.positions := by
  induction arguments with
  | nil => rfl
  | cons argument rest induction =>
      rw [Template.inspect, List.flatMap_cons, List.flatMap_cons, Tree.positions_remember]
      split
      · rw [induction]
      · rfl

end Templates

/-- What an optimizer leaves of a list of positions: none that is not known, and those that are
left in their order unless calls are replaced. -/
structure Optimizer.Leaves (optimizer : Optimizer) (known : Position → Prop)
    (given left : List Position) : Prop where
  known : ∀ position ∈ left, known position
  ordered : optimizer.options.inlineProcedures = false → left.Sublist given

namespace Optimizer.Leaves

variable {optimizer : Optimizer} {known : Position → Prop} {given given' left left' : List Position}

theorem refl (all : ∀ position ∈ left, known position) : optimizer.Leaves known left left :=
  ⟨all, fun _ => .refl _⟩

theorem cons {position : Position} (here : known position)
    (leaves : optimizer.Leaves known given left) :
    optimizer.Leaves known (position :: given) (position :: left) :=
  ⟨List.forall_mem_cons.mpr ⟨here, leaves.known⟩, fun off => (leaves.ordered off).cons_cons _⟩

theorem append (leaves : optimizer.Leaves known given left)
    (leaves' : optimizer.Leaves known given' left') :
    optimizer.Leaves known (given ++ given') (left ++ left') :=
  ⟨List.forall_mem_append.mpr ⟨leaves.known, leaves'.known⟩,
    fun off => (leaves.ordered off).append (leaves'.ordered off)⟩

theorem trans {between : List Position} (leaves : optimizer.Leaves known given between)
    (leaves' : optimizer.Leaves known between left) : optimizer.Leaves known given left :=
  ⟨leaves'.known, fun off => (leaves'.ordered off).trans (leaves.ordered off)⟩

theorem fewer (leaves : optimizer.Leaves known given left) (sublist : left'.Sublist left) :
    optimizer.Leaves known given left' :=
  ⟨fun position member => leaves.known position (sublist.subset member),
    fun off => sublist.trans (leaves.ordered off)⟩

theorem more (leaves : optimizer.Leaves known given left) (sublist : given.Sublist given') :
    optimizer.Leaves known given' left :=
  ⟨leaves.known, fun off => (leaves.ordered off).trans sublist⟩

theorem of_inlining (inlines : optimizer.options.inlineProcedures = true)
    (all : ∀ position ∈ left, known position) : optimizer.Leaves known given left := by
  refine ⟨all, fun off => ?_⟩
  rw [inlines] at off
  cases off

theorem settle {out : Tree} (leaves : optimizer.Leaves known given out.positions) :
    optimizer.Leaves known given (out.settle true).positions := by
  rw [Tree.positions_settle]
  exact leaves

end Optimizer.Leaves

/-- An action of an optimizer that starts with templates at known positions. If it succeeds, the
result is good and so are the templates that it records; if it fails, then at a known position. -/
def Pass.Places {Result : Type} (known : Position → Prop) (good : Result → Prop)
    (action : Pass Result) : Prop :=
  ∀ progress, progress.scopes.Holds (Template.Placed known) →
    match action progress with
    | .ok result after => good result ∧ after.scopes.Holds (Template.Placed known)
    | .error error _ => known error.position

namespace Pass.Places

variable {Item Result : Type} {known : Position → Prop} {good : Item → Prop}
  {good' : Result → Prop}

theorem pure {item : Item} (holds : good item) : Pass.Places known good (Pure.pure item) :=
  fun _ placed => ⟨holds, placed⟩

theorem throw {error : CompileError} (here : known error.position) :
    Pass.Places known good (MonadExcept.throw error) :=
  fun _ _ => here

theorem bind {action : Pass Item} {next : Item → Pass Result}
    (first : Pass.Places known good action)
    (others : ∀ item, good item → Pass.Places known good' (next item)) :
    Pass.Places known good' (action >>= next) := by
  intro progress placed
  have begun := first progress placed
  rw [bind_apply]
  cases outcome : action progress with
  | ok item between =>
      rw [outcome] at begun
      exact others item begun.1 between begun.2
  | error error between =>
      rw [outcome] at begun
      exact begun

theorem imp {action : Pass Item} {better : Item → Prop}
    (places : Pass.Places known better action) (weaker : ∀ item, better item → good item) :
    Pass.Places known good action := by
  rw [← bind_pure action]
  exact places.bind fun item holds => .pure (weaker item holds)

theorem with_frame {action : Pass Item} (places : Pass.Places known good action)
    (kind : FrameKind) : Pass.Places known good (Pass.withFrame kind action) := by
  intro progress placed
  have ran := places { progress with scopes := progress.scopes.push kind } (placed.push kind)
  unfold Pass.withFrame
  cases outcome : action { progress with scopes := progress.scopes.push kind } with
  | ok item after =>
      rw [outcome] at ran
      exact ⟨ran.1, ran.2.pop⟩
  | error error after =>
      rw [outcome] at ran
      exact ran

theorem check_arity (name : String) (arity : Arity) {node : Tree} (here : known node.position) :
    Pass.Places known (fun _ => True) (checkArity name arity node) := by
  unfold checkArity
  split
  · exact .pure trivial
  · exact .throw here

theorem check_parameter {param : Tree} (here : known param.position) :
    Pass.Places known (fun _ => True) (checkParameter param) := by
  unfold checkParameter
  split
  · exact .pure trivial
  · exact .throw here

theorem check_assignment {children : List Tree} (here : ∀ child ∈ children, known child.position) :
    Pass.Places known (fun _ => True) (checkAssignment children) := by
  unfold checkAssignment
  split
  · exact .pure trivial
  · rename_i first rest _
    exact .throw (here first List.mem_cons_self)
  · exact .pure trivial

end Pass.Places

section Visits

variable {optimizer : Optimizer} {revisit : Option (Tree → Pass Tree)} {known : Position → Prop}
  {nodes : List Tree}

abbrev PlacesNode (optimizer : Optimizer) (known : Position → Prop) (node : Tree)
    (action : Pass Tree) : Prop :=
  Pass.Places known (fun node' => optimizer.Leaves known node.positions node'.positions) action

abbrev PlacesNodes (optimizer : Optimizer) (known : Position → Prop) (nodes : List Tree)
    (action : Pass (List Tree)) : Prop :=
  Pass.Places known (fun nodes' => optimizer.Leaves known (nodes.flatMap Tree.positions)
    (nodes'.flatMap Tree.positions)) action

def Tracked (optimizer : Optimizer) (revisit : Option (Tree → Pass Tree))
    (known : Position → Prop) (node : Tree) : Prop :=
  node.Within known → PlacesNode optimizer known node (optimizer.visit revisit node)

theorem settled_places {node : Tree} {action : Pass Tree}
    (placed : PlacesNode optimizer known node action) :
    PlacesNode optimizer known node (action >>= fun out => pure (out.settle true)) :=
  placed.bind fun _ leaves => .pure leaves.settle

theorem places_cons {node : Tree} {first : Pass Tree} {others : Pass (List Tree)}
    (placed : PlacesNode optimizer known node first)
    (placed' : PlacesNodes optimizer known nodes others) :
    PlacesNodes optimizer known (node :: nodes)
      (first >>= fun node' => others >>= fun nodes' => pure (node' :: nodes')) := by
  apply placed.bind
  intro node' leaves
  apply placed'.bind
  intro nodes' leaves'
  exact .pure (leaves.append leaves')

theorem places_singleton {node : Tree} {action : Pass Tree}
    (placed : PlacesNode optimizer known node action) :
    PlacesNodes optimizer known [node] (action >>= fun node' => pure [node']) := by
  apply placed.bind
  intro node' leaves
  apply Pass.Places.pure
  rw [List.flatMap_singleton, List.flatMap_singleton]
  exact leaves

theorem visit_all_places
    (places : ∀ node ∈ nodes, PlacesNode optimizer known node (optimizer.visit revisit node)) :
    PlacesNodes optimizer known nodes (optimizer.visitAll revisit nodes) := by
  induction nodes with
  | nil => exact .pure (.refl (List.forall_mem_nil _))
  | cons node rest induction =>
      rw [List.forall_mem_cons] at places
      rw [Optimizer.visitAll]
      exact places_cons places.1 (induction places.2)

theorem visit_branches_places : (nodes : List Tree) →
    (∀ node ∈ nodes, PlacesNode optimizer known node (optimizer.visit revisit node)) →
    PlacesNodes optimizer known nodes (optimizer.visitBranches revisit nodes)
  | [], _ => .pure (.refl (List.forall_mem_nil _))
  | [otherwise], places => by
      rw [Optimizer.visitBranches]
      exact places_singleton (places otherwise (List.mem_singleton_self _))
  | condition :: branch :: rest, places => by
      rw [List.forall_mem_cons, List.forall_mem_cons] at places
      obtain ⟨first, second, others⟩ := places
      have later := visit_branches_places rest others
      rw [Optimizer.visitBranches]
      apply first.bind
      intro condition' leaves
      cases optimizer.decide? condition' with
      | none =>
          apply second.bind
          intro branch' leaves'
          apply later.bind
          intro rest' others'
          exact .pure (leaves.append (leaves'.append others'))
      | some truth =>
          have skipped : (rest.flatMap Tree.positions).Sublist
              ((condition :: branch :: rest).flatMap Tree.positions) :=
            ((List.sublist_cons_self _ _).trans (List.sublist_cons_self _ _)).flatMap _
          have taken : branch.positions.Sublist
              ((condition :: branch :: rest).flatMap Tree.positions) :=
            (List.sublist_append_left _ _).trans (List.sublist_append_right _ _)
          cases truth with
          | true =>
              apply (places_singleton second).imp
              intro branches leaves'
              rw [List.flatMap_singleton] at leaves'
              exact leaves'.more taken
          | false =>
              apply later.imp
              intro branches leaves'
              exact leaves'.more skipped

theorem visit_parts_places : (nodes : List Tree) →
    (∀ node ∈ nodes, node.Within known ∧
      PlacesNode optimizer known node (optimizer.visit revisit node)) →
    PlacesNodes optimizer known nodes (optimizer.visitParts revisit nodes)
  | [], _ => .pure (.refl (List.forall_mem_nil _))
  | [body], places => by
      rw [Optimizer.visitParts]
      exact places_singleton ((places body (List.mem_singleton_self _)).2.with_frame .procedure)
  | param :: next :: rest, places => by
      rw [List.forall_mem_cons] at places
      obtain ⟨⟨within, first⟩, others⟩ := places
      rw [Optimizer.visitParts]
      apply (Pass.Places.check_parameter within.position).bind
      intro _ _
      exact places_cons first (visit_parts_places (next :: rest) others)

theorem literal_leaves {node : Tree} (within : node.Within known) (value : Value) :
    optimizer.Leaves known node.positions (Tree.literal value node.position).positions := by
  have only : (Tree.literal value node.position).positions = [node.position] := rfl
  rw [only, Tree.positions_eq]
  exact ⟨List.forall_mem_singleton.mpr within.position,
    fun _ => List.singleton_sublist.mpr List.mem_cons_self⟩

theorem normalize_name_places {node : Tree} (within : node.Within known) :
    PlacesNode optimizer known node (normalizeName node) := by
  unfold normalizeName
  split
  · exact .pure (literal_leaves within _).settle
  · exact .throw within.position

theorem visit_definition_places
    (places : ∀ node ∈ nodes, node.Within known ∧
      PlacesNode optimizer known node (optimizer.visit revisit node)) :
    PlacesNodes optimizer known nodes (optimizer.visitDefinition revisit nodes) := by
  cases nodes with
  | nil => exact .pure (.refl (List.forall_mem_nil _))
  | cons nameNode rest =>
      rw [List.forall_mem_cons] at places
      rw [Optimizer.visitDefinition]
      exact places_cons (normalize_name_places places.1.1) (visit_parts_places rest places.2)

theorem record_places {node : Tree} (within : node.Within known) (placement : Placement) :
    Pass.Places known (fun node' => node'.positions = node.positions)
      (optimizer.recordDefinition placement node) := by
  intro progress placed
  obtain ⟨-, same⟩ | ⟨nameNode, name, parts, parts', definition, shape, named, same, analysis⟩ :=
    record_definition_cases optimizer placement node progress
  · rw [same]
    exact ⟨rfl, placed⟩
  · rw [same]
    have below := within.inside
    rw [shape, List.forall_mem_cons] at below
    have whole := Tree.positions_eq node
    rw [shape] at whole
    obtain ⟨rfl, rfl, rfl⟩ | ⟨params, body, rfl, rfl, rfl⟩ := analysis
    · constructor
      · exact (Tree.positions_eq _).trans whole.symm
      · exact placed.define name (fun _ none => by cases none) placement
    · rw [List.forall_mem_append, List.forall_mem_singleton] at below
      obtain ⟨-, params_within, body_within⟩ := below
      constructor
      · apply Eq.trans (Tree.positions_eq _)
        simp only [whole, List.flatMap_cons, List.flatMap_append, analyzed_positions]
      · exact placed.define name (fun _ => analyzed_placed params_within body_within) placement

section Nodes

variable {name : String} {position : Position} {facts : Facts} {children : List Tree}

/-- A call around what is left of its arguments. -/
theorem Optimizer.Leaves.call {payload : Payload} {optimized optimized' : Bool} {facts' : Facts}
    {children' : List Tree} (here : known position)
    (leaves : optimizer.Leaves known (children.flatMap Tree.positions)
      (children'.flatMap Tree.positions)) :
    optimizer.Leaves known (Tree.positions ⟨payload, position, optimized, facts, children⟩)
      (Tree.positions ⟨payload, position, optimized', facts', children'⟩) := by
  rw [Tree.positions_eq, Tree.positions_eq]
  exact leaves.cons here

theorem definition_places
    (within : Tree.Within known ⟨.call name, position, false, facts, children⟩)
    (places : ∀ child ∈ children,
      PlacesNode optimizer known child (optimizer.visit revisit child)) (placement : Placement) :
    PlacesNode optimizer known ⟨.call name, position, false, facts, children⟩
      (optimizer.visitDefinition revisit children >>= fun parts =>
        optimizer.recordDefinition placement ⟨.call name, position, true, {}, parts⟩) := by
  apply (visit_definition_places fun child member =>
    ⟨within.inside child member, places child member⟩).bind
  intro parts leaves
  have visited : optimizer.Leaves known
      (Tree.positions ⟨.call name, position, false, facts, children⟩)
      (Tree.positions ⟨.call name, position, true, {}, parts⟩) := leaves.call within.position
  apply (record_places visited.known placement).imp
  intro node' same
  rw [same]
  exact visited

/-- Statements of a sequence among the statements stand where that sequence stood. -/
theorem statements_cons_places {node : Tree} {rest : List Tree} {action : Pass Tree}
    (first : PlacesNode optimizer known node action)
    (others : PlacesNodes optimizer known rest (optimizer.visitStatements revisit rest)) :
    PlacesNodes optimizer known (node :: rest)
      (action >>= fun node' => optimizer.visitStatements revisit rest >>= fun rest' =>
        pure (splice node' ++ rest')) := by
  apply first.bind
  intro node' leaves
  apply others.bind
  intro rest' leaves'
  apply Pass.Places.pure
  rw [List.flatMap_append]
  exact (leaves.fewer (splice_sublist node')).append leaves'

theorem visit_statements_places
    (tracked : ∀ node ∈ nodes, node.Everywhere (Tracked optimizer revisit known))
    (within : ∀ node ∈ nodes, node.Within known) :
    PlacesNodes optimizer known nodes (optimizer.visitStatements revisit nodes) := by
  induction nodes with
  | nil => exact .pure (.refl (List.forall_mem_nil _))
  | cons node rest induction =>
      rw [List.forall_mem_cons] at tracked within
      have others := induction tracked.2 within.2
      by_cases special : node.specialForm? = some .procedure
      · rcases node with ⟨payload, position, optimized, facts, children⟩
        cases payload with
        | literal | «variable» => cases special
        | call name =>
            cases optimized with
            | true =>
                simp only [Optimizer.visitStatements, special, if_true]
                refine statements_cons_places ?_ others
                apply (record_places within.1 .direct).imp
                intro node' same
                rw [same]
                exact .refl within.1
            | false =>
                have inside := fun child member =>
                  (tracked.1.inside child member).here (within.1.inside child member)
                have first : PlacesNode optimizer known
                    ⟨.call name, position, false, facts, children⟩ _ :=
                  (Pass.Places.check_arity SpecialForm.procedure.name SpecialForm.procedure.arity
                    within.1.position).bind
                    fun _ _ => definition_places within.1 inside .direct
                have step := statements_cons_places first others
                simp only [bind_assoc] at step
                rw [visit_definition_statement_eq _ _ special]
                exact step
      · rw [visit_statement_eq _ _ special]
        exact statements_cons_places (tracked.1.here within.1) others

theorem form_places {form : SpecialForm}
    (within : Tree.Within known ⟨.call name, position, false, facts, children⟩)
    (tracked : ∀ child ∈ children, child.Everywhere (Tracked optimizer revisit known)) :
    PlacesNode optimizer known ⟨.call name, position, false, facts, children⟩
      (visitForm optimizer revisit ⟨.call name, position, false, facts, children⟩ form) := by
  have places := fun child member =>
    (tracked child member).here (within.inside child member)
  have here := within.position
  have whole := Tree.positions_eq ⟨.call name, position, false, facts, children⟩
  cases form with
  | autoConcat | sequence =>
      apply ((visit_statements_places tracked within.inside).with_frame .sequence).bind
      intro statements leaves
      apply Pass.Places.pure
      rw [whole]
      have dropped := leaves.fewer ((drop_voids_sublist statements).flatMap Tree.positions)
      exact (dropped.cons here).fewer (collapse_sublist position _)
  | conditional | choice =>
      apply (visit_branches_places children places).bind
      intro branches leaves
      apply Pass.Places.pure
      rw [whole]
      exact (leaves.cons here).fewer (resolve_sublist _ branches)
  | procedure => exact definition_places within places .nested
  | assignment =>
      apply (Pass.Places.check_assignment fun child member =>
        (within.inside child member).position).bind
      intro _ _
      apply (visit_all_places places).bind
      exact fun children' leaves => .pure (leaves.call here)
  | closure =>
      apply ((visit_all_places places).with_frame .closure).bind
      exact fun children' leaves => .pure (leaves.call here)
  | returning | execution =>
      apply (visit_all_places places).bind
      exact fun children' leaves => .pure (leaves.call here)

theorem check_statically_places {builtin : Builtin} {node : Tree} (here : known node.position) :
    Pass.Places known (fun _ => True) (checkStatically optimizer name builtin node) := by
  unfold checkStatically
  split
  · exact .pure trivial
  · split
    · exact .pure trivial
    · exact .throw here

theorem fold_checked_places {builtin : Builtin} {node : Tree} (within : node.Within known) :
    PlacesNode optimizer known node (foldChecked optimizer name builtin node) := by
  by_cases allowed : (optimizer.options.foldConstants && node.children.all Tree.isConstant &&
      builtin.isFoldable node.children) = true
  · intro progress placed
    rw [fold_checked_folds _ allowed]
    cases builtin.run ⟨node.position, none, optimizer.registry.catalogue⟩
        (node.children.filterMap Tree.value?) progress.store with
    | ok value store => exact ⟨literal_leaves within value, placed⟩
    | error fault store => exact within.position
  · rw [fold_checked_stays _ allowed]
    exact .pure (.refl within)

theorem fold_call_places {node : Tree} (within : node.Within known) :
    PlacesNode optimizer known node (optimizer.foldCall name node) := by
  cases found : optimizer.registry.find? name with
  | none =>
      rw [fold_call_missing _ found]
      exact .throw within.position
  | some builtin =>
      rw [fold_call_eq _ found]
      apply (Pass.Places.check_arity _ _ within.position).bind
      intro _ _
      apply (check_statically_places within.position).bind
      intro _ _
      exact fold_checked_places within

/-- A call that is replaced makes way for an expression whose nodes stand in its template, in its
arguments and where it stood. -/
theorem inline_call_places
    (again : ∀ self tree, revisit = some self → tree.Within known →
      PlacesNode optimizer known tree (self tree))
    {node : Tree} (within : node.Within known) :
    PlacesNode optimizer known node (optimizer.inlineCall revisit name node) := by
  intro progress placed
  obtain ⟨template, self, replacement, inlines, found, rfl, instantiated, same⟩ |
    ⟨node', same, shape⟩ := inline_call_cases optimizer revisit name node progress
  · have trusted := placed.of_known (Scopes.known_eq_some.mpr found)
    have replaced := replacement_within trusted within.inside within.position instantiated
    have visited := again self replacement rfl replaced
    have loose : PlacesNode optimizer known node (self replacement) :=
      visited.imp fun out leaves => .of_inlining inlines leaves.known
    rw [same]
    exact loose progress placed
  · have kept : node.positions = node'.positions := by
      obtain rfl | rfl := shape
      · rfl
      · rw [Tree.positions_eq, Tree.positions_eq ⟨_, _, _, _, _⟩, inspect_positions]
    have leaves : optimizer.Leaves known node.positions node'.positions := by
      rw [← kept]
      exact .refl within
    rw [same]
    exact ⟨leaves, placed⟩

theorem call_places
    (again : ∀ self tree, revisit = some self → tree.Within known →
      PlacesNode optimizer known tree (self tree))
    {node : Tree} (within : node.Within known) :
    PlacesNode optimizer known node (visitCall optimizer revisit name node) := by
  unfold visitCall
  split
  · exact inline_call_places again within
  · exact fold_call_places within

end Nodes

/-- A visit keeps track of every node, by induction on the tree. -/
theorem visit_tracked
    (again : ∀ self tree, revisit = some self → tree.Within known →
      PlacesNode optimizer known tree (self tree)) (tree : Tree) :
    tree.Everywhere (Tracked optimizer revisit known) := by
  apply Tree.Everywhere.intro
  intro payload position optimized facts children induction within
  have leaf : Tree.functionName? ⟨payload, position, optimized, facts, children⟩ = none →
      optimized = false → PlacesNode optimizer known ⟨payload, position, optimized, facts, children⟩
        (optimizer.visit revisit ⟨payload, position, optimized, facts, children⟩) := by
    intro leaf unsettled progress placed
    rw [visit_leaf _ _ unsettled leaf]
    exact ⟨(Optimizer.Leaves.refl within).settle, placed⟩
  cases optimized with
  | true =>
      intro progress placed
      rw [visit_settled _ _ rfl]
      exact ⟨.refl within, placed.hide_all _⟩
  | false =>
      cases payload with
      | literal value => exact leaf rfl rfl
      | «variable» name => exact leaf rfl rfl
      | call name =>
          cases special : SpecialForm.ofName? name with
          | some form =>
              rw [visit_form_eq _ _ special]
              apply (Pass.Places.check_arity _ _ within.position).bind
              exact fun _ _ => settled_places (form_places within induction)
          | none =>
              rw [visit_call_eq _ _ special, ← bind_assoc]
              apply settled_places
              apply (visit_all_places fun child member =>
                (induction child member).here (within.inside child member)).bind
              intro children' leaves
              have rebuilt : optimizer.Leaves known
                  (Tree.positions ⟨.call name, position, false, facts, children⟩)
                  (Tree.positions ⟨.call name, position, false, {}, children'⟩) :=
                leaves.call within.position
              exact (call_places again rebuilt.known).imp fun out => rebuilt.trans

theorem pass_places (depth : Nat) {tree : Tree} (within : tree.Within known) :
    PlacesNode optimizer known tree (optimizer.pass depth tree) := by
  induction depth generalizing tree with
  | zero => exact (visit_tracked (fun _ _ none => by cases none) tree).here within
  | succ depth induction =>
      refine (visit_tracked (fun self other same below => ?_) tree).here within
      cases same
      exact induction below

end Visits

/-- Positions survive an optimization. Where calls are not replaced, the nodes of an optimized
script stand at positions of the script in their order; where they are, at positions of the script.
An optimization that fails does so at a position of the script. All that holds however deep
replacements are nested. -/
theorem optimize_keeps_positions (optimizer : Optimizer) (depth : Nat) (tree : Tree)
    (store : Store) :
    match runVisit (optimizer.pass depth) tree store with
    | .ok tree' _ =>
        (optimizer.options.inlineProcedures = false → tree'.positions.Sublist tree.positions) ∧
          ∀ position ∈ tree'.positions, position ∈ tree.positions
    | .error error _ => error.position ∈ tree.positions := by
  have within : tree.Within (· ∈ tree.positions) := fun _ member => member
  have nothing : Scopes.initial.Holds (Template.Placed (· ∈ tree.positions)) := by
    intro frame member name template found
    rw [List.mem_singleton.mp member] at found
    cases found
  have placed := @pass_places optimizer _ depth tree within ⟨Scopes.initial, store⟩ nothing
  unfold runVisit
  cases passed : optimizer.pass depth tree ⟨Scopes.initial, store⟩ with
  | ok tree' after =>
      rw [passed] at placed
      exact ⟨placed.1.ordered, placed.1.known⟩
  | error error after =>
      rw [passed] at placed
      exact placed

end TreeScript
