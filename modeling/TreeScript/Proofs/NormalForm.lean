import TreeScript.Proofs.Checking
import TreeScript.Proofs.Preservation
/-!
# Normal forms

What the optimizer leaves when it is done: every node is settled, sequences are flat, conditions
are open, calls of functions are not to be folded, and definitions have their names as strings. A
visit goes from the leaves to the root, and at each node it finds normal forms below.

An expression that replaces a call is made of the body of a template, which is visited again from
the ground, and of arguments, which are in normal form and stay settled. A check of a function may
look at what its arguments remember, and a copy remembers nothing. So of a call among the arguments
it is only known that what was checked is the same tree otherwise. That is enough, since calls in
arguments are of pure functions, and those are folded whatever their arguments are.

Main statement: an optimized script is in normal form, in the bodies of its procedures and closures
and everywhere else.
-/

namespace TreeScript

set_option autoImplicit false

namespace Tree

section Copies

variable (tree : Tree)

@[simp] theorem copy_payload : tree.copy.payload = tree.payload := by
  rcases tree with ⟨payload, position, optimized, facts, children⟩
  rfl

@[simp] theorem copy_children : tree.copy.children = tree.children.map copy := by
  rcases tree with ⟨payload, position, optimized, facts, children⟩
  exact copies_eq_map children

@[simp] theorem copy_copy : tree.copy.copy = tree.copy := by
  induction tree using Tree.induction with
  | node payload position optimized facts children induction =>
      simp only [copy, copies_eq_map, List.map_map]
      congr 1
      exact List.map_congr_left induction

@[simp] theorem value_copy : tree.copy.value? = tree.value? := by
  rw [value?, copy_payload, value?]

@[simp] theorem is_constant_copy : tree.copy.isConstant = tree.isConstant := by
  rw [isConstant, copy_payload, isConstant]

@[simp] theorem special_form_copy : tree.copy.specialForm? = tree.specialForm? := by
  rw [specialForm?, functionName?, copy_payload, specialForm?, functionName?]

@[simp] theorem is_void_literal_copy : isVoidLiteral tree.copy = isVoidLiteral tree := by
  rw [isVoidLiteral, value_copy, isVoidLiteral]

/-- Whether a node is a parameter is a matter of its payload and of those of its children. -/
theorem parameter_change {change : Tree → Tree}
    (payload : ∀ tree : Tree, (change tree).payload = tree.payload)
    (children : ∀ tree : Tree, (change tree).children = tree.children.map change) :
    (change tree).parameter?.isSome = tree.parameter?.isSome := by
  rw [parameter?, parameter?, specialForm?, functionName?, specialForm?, functionName?,
    payload tree, children tree]
  rcases tree with ⟨here, position, optimized, facts, below⟩
  cases here with
  | literal value => rfl
  | «variable» name => rfl
  | call name =>
      cases below with
      | nil => rfl
      | cons target rest =>
          have same := payload target
          rcases target with ⟨written, _, _, _, _⟩
          simp only [List.map_cons]
          generalize change _ = target' at same
          rcases target' with ⟨written', _, _, _, _⟩
          obtain rfl : written' = written := same
          by_cases assigned : (Payload.call name).functionName?.bind SpecialForm.ofName? =
              some .assignment
          · rw [if_pos assigned, if_pos assigned]
            cases written' with
            | «variable» name => cases rest <;> rfl
            | literal value => rfl
            | call name => rfl
          · rw [if_neg assigned, if_neg assigned]

@[simp] theorem parameter_copy : tree.copy.parameter?.isSome = tree.parameter?.isSome :=
  tree.parameter_change copy_payload copy_children

variable {tree} {trees trees' : List Tree}

theorem forall_of_copies {holds : Tree → Prop} (same : copies trees' = copies trees)
    (respects : ∀ tree : Tree, holds tree.copy ↔ holds tree) (all : ∀ tree ∈ trees, holds tree) :
    ∀ tree ∈ trees', holds tree := by
  rw [copies_eq_map, copies_eq_map] at same
  intro tree' member
  have copied : tree'.copy ∈ trees.map copy := same ▸ List.mem_map_of_mem member
  obtain ⟨tree, within, same⟩ := List.mem_map.mp copied
  rw [← respects, ← same, respects]
  exact all tree within

theorem drop_last_copies (same : copies trees' = copies trees) :
    copies trees'.dropLast = copies trees.dropLast := by
  rw [copies_eq_map, copies_eq_map] at same ⊢
  rw [List.map_dropLast, same, List.map_dropLast]

theorem copy_eq_leaf {payload : Payload} {position : Position} {optimized : Bool} {facts : Facts}
    (same : tree.copy = copy ⟨payload, position, optimized, facts, []⟩) :
    ∃ facts', tree = ⟨payload, position, optimized, facts', []⟩ := by
  rcases tree with ⟨payload', position', optimized', facts', children⟩
  simp only [copy, copies, copies_eq_map, Tree.mk.injEq, List.map_eq_nil_iff, true_and] at same
  obtain ⟨rfl, rfl, rfl, rfl⟩ := same
  exact ⟨facts', rfl⟩

theorem all_constant_copies (same : copies trees' = copies trees) :
    trees'.all isConstant = trees.all isConstant := by
  have copied : ∀ trees : List Tree, (copies trees).all isConstant = trees.all isConstant := by
    intro trees
    simp [copies_eq_map, List.all_map, Function.comp_def]
  rw [← copied, same, copied]

theorem copies_length (same : copies trees' = copies trees) : trees'.length = trees.length := by
  rw [copies_eq_map, copies_eq_map] at same
  simpa using congrArg List.length same

end Copies

end Tree

namespace Optimizer

variable (optimizer : Optimizer)

theorem leaves_open_copies : (branches : List Tree) →
    (optimizer.LeavesOpen (Tree.copies branches) ↔ optimizer.LeavesOpen branches)
  | [] | [_] => Iff.rfl
  | condition :: branch :: rest => by
      have later := leaves_open_copies rest
      simp only [Tree.copies, LeavesOpen, later, decide?, Tree.value_copy]

/-- A call of a builtin function that is left as it is. If the function is pure, the arguments may
be copies of those that were looked at. -/
def LeavesCall (builtin : Builtin) (arguments : List Tree) : Prop :=
  ∃ seen, optimizer.KeepsCall builtin seen ∧ Tree.copies seen = Tree.copies arguments ∧
    (seen = arguments ∨ builtin.isPure = true)

end Optimizer

/-- What is left of a special form. Whether there may be definitions at all is up to the reader. -/
def SpecialForm.Simplified (optimizer : Optimizer) (definitions : Prop) :
    SpecialForm → List Tree → Prop
  | .autoConcat, _ => False
  | .sequence, statements => 2 ≤ statements.length ∧
      (∀ statement ∈ statements, statement.specialForm?.any SpecialForm.isSequence = false) ∧
      ∀ statement ∈ statements.dropLast, isVoidLiteral statement = false
  | .conditional, children | .choice, children => optimizer.LeavesOpen children
  | .procedure, children => definitions ∧ ∃ defined place facts parts,
      Tree.isProcedureName defined = true ∧
      children = ⟨.literal (.string defined), place, true, facts, []⟩ :: parts ∧
      ∀ param ∈ parts.dropLast, param.parameter?.isSome = true
  | .assignment, children => SpecialForm.assignment.Fits children
  | .returning, _ | .closure, _ | .execution, _ => True

namespace SpecialForm.Simplified

variable {optimizer : Optimizer} {definitions : Prop} {form : SpecialForm}
  {children children' : List Tree}

theorem of_copies (same : Tree.copies children' = Tree.copies children)
    (simplified : form.Simplified optimizer definitions children) :
    form.Simplified optimizer definitions children' := by
  cases form with
  | autoConcat => exact simplified
  | sequence =>
      obtain ⟨enough, flat, noVoids⟩ := simplified
      refine ⟨by rw [Tree.copies_length same]; exact enough, ?_, ?_⟩
      · exact Tree.forall_of_copies same (fun tree => by rw [Tree.special_form_copy]) flat
      · exact Tree.forall_of_copies (Tree.drop_last_copies same)
          (fun tree => by rw [Tree.is_void_literal_copy]) noVoids
  | conditional | choice =>
      change optimizer.LeavesOpen children'
      rw [← optimizer.leaves_open_copies, same, optimizer.leaves_open_copies]
      exact simplified
  | procedure =>
      obtain ⟨allowed, defined, place, facts, parts, valid, rfl, params⟩ := simplified
      rw [Tree.copies_eq_map, Tree.copies_eq_map, List.map_cons, List.map_eq_cons_iff] at same
      obtain ⟨nameNode, parts', rfl, named, others⟩ := same
      obtain ⟨facts', rfl⟩ := Tree.copy_eq_leaf named
      rw [← Tree.copies_eq_map, ← Tree.copies_eq_map] at others
      refine ⟨allowed, defined, place, facts', parts', valid, rfl, ?_⟩
      exact Tree.forall_of_copies (Tree.drop_last_copies others)
        (fun tree => by rw [Tree.parameter_copy]) params
  | assignment =>
      obtain ⟨target, name, rest, rfl, named⟩ := simplified
      rw [Tree.copies_eq_map, Tree.copies_eq_map, List.map_cons, List.map_eq_cons_iff] at same
      obtain ⟨target', rest', rfl, first, -⟩ := same
      refine ⟨target', name, rest', rfl, ?_⟩
      rw [← Tree.copy_payload, first, Tree.copy_payload, named]
  | returning | closure | execution => trivial

end SpecialForm.Simplified

namespace Tree

/-- A tree that a visit has nothing left to do with. -/
inductive Normal (optimizer : Optimizer) (definitions : Prop) : Tree → Prop where
  | leaf {payload : Payload} (position : Position) (facts : Facts) :
      payload.functionName? = none →
      Normal optimizer definitions ⟨payload, position, true, facts, []⟩
  | form {name : String} {kind : SpecialForm} (position : Position) (facts : Facts)
      {children : List Tree} : SpecialForm.ofName? name = some kind →
      kind.arity.accepts children.length = true →
      kind.Simplified optimizer definitions children →
      (∀ child ∈ children, Normal optimizer definitions child) →
      Normal optimizer definitions ⟨.call name, position, true, facts, children⟩
  | procedure {name : String} (position : Position) (facts : Facts) {children : List Tree} :
      SpecialForm.ofName? name = none → isProcedureName name = true →
      (∀ child ∈ children, Normal optimizer definitions child) →
      Normal optimizer definitions ⟨.call name, position, true, facts, children⟩
  | function {name : String} {builtin : Builtin} (position : Position) (facts : Facts)
      {children : List Tree} : SpecialForm.ofName? name = none → isProcedureName name = false →
      optimizer.registry.find? name = some builtin → optimizer.LeavesCall builtin children →
      (∀ child ∈ children, Normal optimizer definitions child) →
      Normal optimizer definitions ⟨.call name, position, true, facts, children⟩

/-- A tree that may be visited: no node above an open one is settled. -/
inductive Visitable (optimizer : Optimizer) (definitions : Prop) : Tree → Prop where
  | normal {tree : Tree} : tree.Normal optimizer definitions → Visitable optimizer definitions tree
  | leaf {payload : Payload} (position : Position) (facts : Facts) :
      payload.functionName? = none →
      Visitable optimizer definitions ⟨payload, position, false, facts, []⟩
  | call {name : String} (position : Position) (facts : Facts) {children : List Tree} :
      (SpecialForm.ofName? name = some .procedure → definitions) →
      (∀ child ∈ children, Visitable optimizer definitions child) →
      Visitable optimizer definitions ⟨.call name, position, false, facts, children⟩

variable {optimizer : Optimizer} {definitions : Prop} {tree : Tree} {name : String}
  {payload : Payload} {position : Position} {optimized : Bool} {facts : Facts}
  {children : List Tree}

namespace Normal

theorem settled (normal : tree.Normal optimizer definitions) : tree.optimized = true := by
  cases normal <;> rfl

theorem notes
    (normal : Normal optimizer definitions ⟨payload, position, optimized, facts, children⟩)
    (position' : Position) (facts' : Facts) :
    Normal optimizer definitions ⟨payload, position', optimized, facts', children⟩ := by
  cases normal with
  | leaf _ _ isLeaf => exact .leaf _ _ isLeaf
  | form _ _ special accepted simplified below =>
      exact .form _ _ special accepted simplified below
  | procedure _ _ plain named below => exact .procedure _ _ plain named below
  | function _ _ plain unnamed found left below =>
      exact .function _ _ plain unnamed found left below

theorem settle (normal : tree.Normal optimizer definitions) :
    (tree.settle true).Normal optimizer definitions := by
  have same : tree.settle true = tree := by
    rcases tree with ⟨payload, position, optimized, facts, children⟩
    have flag : optimized = true := normal.settled
    rw [flag]
    rfl
  rw [same]
  exact normal

theorem remember (normal : tree.Normal optimizer definitions) (kind : FactKind) :
    (tree.remember kind).Normal optimizer definitions := by
  rcases tree with ⟨payload, position, optimized, facts, children⟩
  unfold Tree.remember ask
  split
  · exact normal
  · exact normal.notes _ _

theorem inside (normal : tree.Normal optimizer definitions) :
    ∀ child ∈ tree.children, child.Normal optimizer definitions := by
  cases normal with
  | leaf _ _ isLeaf => exact List.forall_mem_nil _
  | form _ _ _ _ _ below => exact below
  | procedure _ _ _ _ below => exact below
  | function _ _ _ _ _ _ below => exact below

theorem bare (normal : tree.Normal optimizer definitions) : tree.BareLeaf := by
  cases normal with
  | leaf _ _ isLeaf => exact fun _ => rfl
  | form | procedure | function => exact nofun

theorem formed {kind : SpecialForm}
    (normal : Normal optimizer definitions ⟨.call name, position, optimized, facts, children⟩)
    (special : SpecialForm.ofName? name = some kind) :
    kind.arity.accepts children.length = true ∧
      kind.Simplified optimizer definitions children := by
  cases normal with
  | leaf _ _ isLeaf => cases isLeaf
  | form _ _ special' accepted simplified _ =>
      rw [special] at special'
      cases special'
      exact ⟨accepted, simplified⟩
  | procedure _ _ plain _ _ | function _ _ plain _ _ _ _ =>
      rw [special] at plain
      cases plain

/-- A copy of a tree without side effects. The functions that are called in it are pure. -/
theorem copy (normal : tree.Normal optimizer definitions)
    (free : tree.isSideEffectFree optimizer.registry = true) :
    tree.copy.Normal optimizer definitions := by
  have copied : ∀ children : List Tree, copies (children.map Tree.copy) = copies children := by
    intro children
    simp [copies_eq_map, Function.comp_def]
  induction normal with
  | leaf _ _ isLeaf => exact .leaf _ _ isLeaf
  | @form name kind position facts children special accepted simplified below induction =>
      obtain ⟨-, freeBelow⟩ := is_side_effect_free_call free
      rw [Tree.copy, copies_eq_map]
      refine .form _ _ special (by simpa using accepted) (simplified.of_copies (copied _)) ?_
      exact List.forall_mem_map.mpr fun child member =>
        induction child member (freeBelow child member)
  | @procedure name position facts children plain named below induction =>
      obtain ⟨-, freeBelow⟩ := is_side_effect_free_call free
      rw [Tree.copy, copies_eq_map]
      refine .procedure _ _ plain named ?_
      exact List.forall_mem_map.mpr fun child member =>
        induction child member (freeBelow child member)
  | @function name builtin position facts children plain unnamed found left below induction =>
      obtain ⟨allowed, freeBelow⟩ := is_side_effect_free_call free
      have isPure : builtin.isPure = true := by
        rw [plain, Option.any_none, Bool.or_false] at allowed
        obtain ⟨builtin', found', isPure⟩ := (Registry.is_pure_iff _ _).mp allowed
        rw [found] at found'
        cases found'
        exact isPure
      obtain ⟨seen, kept, same, -⟩ := left
      rw [Tree.copy, copies_eq_map]
      refine .function _ _ plain unnamed found ?_ ?_
      · exact ⟨seen, kept, by rw [copied, same], .inr isPure⟩
      · exact List.forall_mem_map.mpr fun child member =>
          induction child member (freeBelow child member)

theorem substitute {bindings : Bindings Tree} (normal : tree.Normal optimizer definitions)
    (bound : ∀ name found, bindings.find? name = some found →
      found.copy.Normal optimizer definitions) :
    (tree.freshCopy.substitute bindings).Visitable optimizer definitions := by
  induction tree using Tree.induction with
  | node payload position optimized facts children induction =>
      have below := fun child member => induction child member (normal.inside child member)
      rw [freshCopy, freshCopies_eq_map]
      cases payload with
      | literal value =>
          obtain rfl : children = [] := normal.bare rfl
          exact .leaf _ _ rfl
      | «variable» name =>
          obtain rfl : children = [] := normal.bare rfl
          simp only [Tree.substitute, Payload.variableName?, Option.bind_some]
          cases found : bindings.find? name with
          | none => exact .leaf _ _ rfl
          | some tree => exact .normal (bound name tree found)
      | call name =>
          simp only [Tree.substitute, Payload.variableName?, Option.bind_none]
          rw [substitute_all_eq_map]
          refine .call _ _ (fun special => (normal.formed special).2.1) ?_
          simp only [List.forall_mem_map]
          exact below

end Normal

namespace Visitable

theorem of_settled (visitable : tree.Visitable optimizer definitions)
    (settled : tree.optimized = true) : tree.Normal optimizer definitions := by
  cases visitable with
  | normal normal => exact normal
  | leaf | call => cases settled

theorem leaf_settle (visitable : tree.Visitable optimizer definitions)
    (isLeaf : tree.functionName? = none) : (tree.settle true).Normal optimizer definitions := by
  cases visitable with
  | normal normal => exact normal.settle
  | leaf position facts isLeaf => exact .leaf position facts isLeaf
  | call => cases isLeaf

theorem opened
    (visitable : Visitable optimizer definitions ⟨.call name, position, false, facts, children⟩) :
    (SpecialForm.ofName? name = some .procedure → definitions) ∧
      ∀ child ∈ children, child.Visitable optimizer definitions := by
  cases visitable with
  | normal normal => cases normal.settled
  | leaf _ _ isLeaf => cases isLeaf
  | call _ _ allowed below => exact ⟨allowed, below⟩

theorem place_at (visitable : tree.Visitable optimizer definitions) (place : Position) :
    (tree.placeAt place).Visitable optimizer definitions := by
  rcases tree with ⟨payload, position, optimized, facts, children⟩
  cases visitable with
  | normal normal => exact .normal (normal.notes place facts)
  | leaf _ _ isLeaf => exact .leaf place facts isLeaf
  | call _ _ allowed below => exact .call place facts allowed below

theorem of_unvisited (unvisited : tree.Everywhere Unvisited)
    (allowed : tree.Everywhere fun node => node.specialForm? = some .procedure → definitions) :
    tree.Visitable optimizer definitions := by
  induction tree using Tree.induction with
  | node payload position optimized facts children induction =>
      obtain rfl : optimized = false := unvisited.here.fresh
      cases leaf : payload.functionName? with
      | none =>
          obtain rfl : children = [] := unvisited.here.bare leaf
          exact .leaf position facts leaf
      | some name =>
          obtain rfl : payload = .call name := by
            cases payload <;> cases leaf
            rfl
          exact .call position facts allowed.here fun child member =>
            induction child member (unvisited.inside child member) (allowed.inside child member)

end Visitable

end Tree

structure Template.Normal (optimizer : Optimizer) (definitions : Prop) (template : Template) :
    Prop where
  body : ∃ expression : Tree, expression.Normal optimizer definitions ∧
    template.body = expression.freshCopy
  defaults : ∀ slot ∈ template.slots, ∀ default, slot.default = some default →
    default.Normal optimizer definitions ∧
      default.isSideEffectFree optimizer.registry = true

section Templates

variable {optimizer : Optimizer} {definitions : Prop} {template : Template} {name : String}
  {params arguments : List Tree} {body : Tree} {position : Position}

/-- The expression that replaces a call may be visited. -/
theorem Template.Normal.instantiate (normal : template.Normal optimizer definitions)
    (given : ∀ argument ∈ arguments, argument.Normal optimizer definitions) {replacement : Tree}
    (instantiated :
      template.instantiate? optimizer.registry arguments position = some replacement) :
    replacement.Visitable optimizer definitions := by
  obtain ⟨accepted, bindings, bound, rfl⟩ := instantiate_eq_some instantiated
  obtain ⟨expression, normalExpression, same⟩ := normal.body
  rw [same, Tree.fresh_copy_twice]
  apply Tree.Visitable.place_at
  apply normalExpression.substitute
  intro name tree found
  have quiet : tree.Normal optimizer definitions ∧
      tree.isSideEffectFree optimizer.registry = true :=
    accepted_bindings_hold accepted bound
      (fun argument member harmless => ⟨given argument member, harmless⟩) normal.defaults
      name tree found
  exact quiet.1.copy quiet.2

theorem analyzed_template_normal
    (normalParams : ∀ param ∈ params, param.Normal optimizer definitions)
    (normalBody : body.Normal optimizer definitions)
    (analyzed :
      (Definition.analyze optimizer.registry name params body).1 = .inlinable template) :
    template.Normal optimizer definitions := by
  obtain ⟨expression, returned, described⟩ := analyze_inlinable analyzed
  obtain ⟨-, only⟩ := Tree.returned_eq_some returned
  refine ⟨⟨expression, ?_, described.body⟩, fun slot member default given => ?_⟩
  · apply normalBody.inside
    rw [only]
    exact List.mem_singleton_self expression
  · obtain ⟨node, within, made⟩ := slot_of_node described.slots member
    have normal := (normalParams node within).inside default (Tree.slot_default_child made given)
    obtain ⟨value, constant⟩ := slot_default_literal made given
    rcases default with ⟨payload, place, optimized, facts, children⟩
    obtain rfl : payload = .literal value := constant
    obtain rfl : children = [] := normal.bare rfl
    exact ⟨normal, rfl⟩

theorem analyzed_body_normal (normal : body.Normal optimizer definitions) :
    (Definition.analyze optimizer.registry name params body).2.Normal optimizer definitions := by
  refine analyzed_body_keeps normal (fun kind _ kept => kept.remember kind) ?_
  intro expression returned
  obtain ⟨called, only⟩ := Tree.returned_eq_some returned
  rcases body with ⟨payload, place, optimized, facts, children⟩
  simp only at called only
  subst called only
  have special := SpecialForm.ofName?_name .returning
  refine ⟨normal.inside expression (List.mem_singleton_self expression), ?_⟩
  intro expression' facts' kept
  obtain rfl : optimized = true := normal.settled
  refine .form _ _ special (normal.formed special).1 trivial fun child member => ?_
  rw [List.mem_singleton.mp member]
  exact kept

end Templates

section Nodes

variable {optimizer : Optimizer} {definitions : Prop} {position : Position}
  {statements : List Tree}

theorem splice_normal {statement : Tree} (normal : statement.Normal optimizer definitions) :
    ∀ part ∈ splice statement, part.Normal optimizer definitions ∧
      part.specialForm?.any SpecialForm.isSequence = false := by
  unfold splice
  split
  · rename_i isSequence
    rcases statement with ⟨payload, place, optimized, facts, children⟩
    cases payload with
    | call name =>
        rw [Option.any_eq_true] at isSequence
        obtain ⟨form, special, sequential⟩ := isSequence
        have simplified := (normal.formed special).2
        cases form with
        | sequence =>
            exact fun part member => ⟨normal.inside part member, simplified.2.1 part member⟩
        | autoConcat => exact simplified.elim
        | _ => cases sequential
    | _ => cases isSequence
  · rename_i other
    intro part member
    rw [List.mem_singleton.mp member]
    exact ⟨normal, by simpa using other⟩

theorem drop_voids_init (statements : List Tree) :
    ∀ statement ∈ (dropVoids statements).dropLast, isVoidLiteral statement = false := by
  fun_induction dropVoids statements with
  | case1 => exact List.forall_mem_nil _
  | case2 last => exact List.forall_mem_nil _
  | case3 first next rest isVoid induction => exact induction
  | case4 first next rest counts induction =>
      intro statement member
      cases later : dropVoids (next :: rest) with
      | nil =>
          rw [later] at member
          cases member
      | cons second others =>
          rw [later] at member induction
          rw [List.dropLast_cons_cons] at member
          obtain rfl | behind := List.mem_cons.mp member
          · simpa using counts
          · exact induction statement behind

theorem collapse_normal
    (normal : ∀ statement ∈ statements, statement.Normal optimizer definitions) :
    ((collapse position (dropVoids (statements.flatMap splice))).settle true).Normal optimizer
      definitions := by
  have kept : ∀ part ∈ dropVoids (statements.flatMap splice),
      part.Normal optimizer definitions ∧
        part.specialForm?.any SpecialForm.isSequence = false := by
    intro part member
    obtain ⟨statement, within, spliced⟩ := List.mem_flatMap.mp (mem_drop_voids member)
    exact splice_normal (normal statement within) part spliced
  have noVoids := drop_voids_init (statements.flatMap splice)
  generalize dropVoids (statements.flatMap splice) = parts at kept noVoids
  match parts with
  | [] => exact .leaf _ _ rfl
  | [part] => exact (kept part (List.mem_singleton_self part)).1.settle
  | first :: second :: rest =>
      have below := fun part member => (kept part member).1
      have simplified : SpecialForm.sequence.Simplified optimizer definitions
          (first :: second :: rest) := ⟨by simp, fun part member => (kept part member).2, noVoids⟩
      exact .form position {} (SpecialForm.ofName?_name .sequence) (by simp [SpecialForm.arity])
        simplified below

theorem resolve_normal {name : String} {form : SpecialForm} {facts : Facts}
    {children branches : List Tree} (special : SpecialForm.ofName? name = some form)
    (branching : form = .conditional ∨ form = .choice)
    (accepted : form.arity.accepts children.length = true)
    (shorter : branches.length ≤ children.length) (isOpen : optimizer.LeavesOpen branches)
    (normal : ∀ branch ∈ branches, branch.Normal optimizer definitions) :
    ((resolve ⟨.call name, position, false, facts, children⟩ branches).settle true).Normal
      optimizer definitions := by
  match branches with
  | [] => exact .leaf _ _ rfl
  | [branch] => exact (normal branch (List.mem_singleton_self branch)).settle
  | first :: second :: rest =>
      have fewer : form.arity.accepts (first :: second :: rest).length = true := by
        rcases branching with rfl | rfl <;> simp [SpecialForm.arity] at accepted shorter ⊢
        omega
      refine .form position {} special fewer ?_ normal
      rcases branching with rfl | rfl <;> exact isOpen

/-- What an analysis notes on a definition does not matter. -/
theorem recorded_normal {name defined : String} {facts : Facts} {nameNode body : Tree}
    {params : List Tree}
    (normal : Tree.Normal optimizer definitions
      ⟨.call name, position, true, facts, nameNode :: (params ++ [body])⟩)
    (special : SpecialForm.ofName? name = some .procedure) :
    Tree.Normal optimizer definitions ⟨.call name, position, true, facts,
      nameNode :: (params ++ [(Definition.analyze optimizer.registry defined params body).2])⟩ ∧
    ∀ template,
      (Definition.analyze optimizer.registry defined params body).1 = .inlinable template →
        template.Normal optimizer definitions := by
  obtain ⟨allowed, written, place, nameFacts, parts, valid, same, shapes⟩ :=
    (normal.formed special).2
  cases same
  have inside := normal.inside
  rw [List.forall_mem_cons, List.forall_mem_append] at inside
  obtain ⟨normalName, normalParams, last⟩ := inside
  have normalBody := last body (List.mem_singleton_self body)
  refine ⟨.form _ _ special (by simp [SpecialForm.arity]) ?_ ?_, fun template analyzed =>
    analyzed_template_normal normalParams normalBody analyzed⟩
  · refine ⟨allowed, written, place, nameFacts, _, valid, rfl, ?_⟩
    rw [List.dropLast_concat] at shapes ⊢
    exact shapes
  · rw [List.forall_mem_cons, List.forall_mem_append]
    refine ⟨normalName, normalParams, fun part member => ?_⟩
    rw [List.mem_singleton.mp member]
    exact analyzed_body_normal normalBody

end Nodes

def normalContract (optimizer : Optimizer) (definitions : Prop) : Contract optimizer where
  admits := Tree.Visitable optimizer definitions
  yields := Tree.Normal optimizer definitions
  trusts := Template.Normal optimizer definitions
  inside admitted := admitted.opened.2
  settled flag admitted := admitted.of_settled flag
  leaf _ isLeaf admitted := admitted.leaf_settle isLeaf
  settle normal := normal.settle
  remember kind normal := normal.remember kind
  sequence _ normal := collapse_normal normal
  branching _ _ special branching accepted shorter isOpen normal :=
    resolve_normal special branching accepted shorter isOpen normal
  keeping {_ form _} position special keeps accepted fits normal := by
    refine .form position {} special accepted ?_ normal
    cases form with
    | assignment => exact fits
    | closure | returning | execution => trivial
    | _ => cases keeps
  definition place admitted special valid normal params := by
    refine .form _ _ special (by simp [SpecialForm.arity]) ?_ ?_
    · exact ⟨admitted.opened.1 special, _, place, {}, _, valid, rfl, params⟩
    · exact List.forall_mem_cons.mpr ⟨.leaf _ _ rfl, normal⟩
  recorded normal special _ := recorded_normal normal special
  replaced trusted given instantiated := trusted.instantiate given instantiated
  procedureCall position plain named normal := .procedure position {} plain named normal
  functionCall position plain unnamed found kept normal :=
    .function position {} plain unnamed found ⟨_, kept, rfl, .inl rfl⟩ normal
  folded _ _ _ := .leaf _ _ rfl

theorem run_normal {optimizer : Optimizer} {definitions : Prop} {depth : Nat} {tree tree' : Tree}
    (unvisited : tree.Everywhere Tree.Unvisited)
    (allowed : tree.Everywhere fun node =>
      node.specialForm? = some .procedure → definitions)
    {store store' : Store}
    (done : runVisit (optimizer.pass depth) tree store = .ok tree' store') :
    tree'.Normal optimizer definitions :=
  (normalContract optimizer definitions).run_yields (.of_unvisited unvisited allowed) done

/-- A node that shows no work for an optimizer with all simplifications. A condition of a
conditional or of a choice stands at an even place with a branch behind it. -/
structure Tree.ShowsNoWork (registry : Registry) (node : Tree) : Prop where
  settled : node.optimized = true
  written : node.specialForm? ≠ some .autoConcat
  sequence : node.specialForm? = some .sequence → 2 ≤ node.children.length ∧
    (∀ child ∈ node.children, child.specialForm?.any SpecialForm.isSequence = false) ∧
    ∀ child ∈ node.children.dropLast, child.payload ≠ .literal .void
  branching : node.specialForm? = some .conditional ∨ node.specialForm? = some .choice →
    ∀ index condition, index % 2 = 0 → index + 1 < node.children.length →
      node.children[index]? = some condition → condition.isConstant = false
  call : ∀ name builtin, node.payload = .call name → Tree.isProcedureName name = false →
    registry.find? name = some builtin → node.children.all Tree.isConstant = true →
      builtin.isFoldable node.children = false
  definition : node.specialForm? = some .procedure → ∃ nameNode name rest,
    node.children = nameNode :: rest ∧ nameNode.payload = .literal (.string name) ∧
      Tree.isProcedureName name = true

section Readers

variable {registry : Registry}

theorem open_condition {optimizer : Optimizer} (on : optimizer.options.eliminateBranches = true)
    {condition : Tree} (undecided : optimizer.decide? condition = none) :
    condition.isConstant = false := by
  rw [Optimizer.decide?, if_pos on, Option.map_eq_none_iff] at undecided
  rw [Tree.isConstant_eq, undecided]
  rfl

theorem open_conditions {optimizer : Optimizer}
    (on : optimizer.options.eliminateBranches = true) :
    (children : List Tree) → optimizer.LeavesOpen children →
    ∀ index condition, index % 2 = 0 → index + 1 < children.length →
      children[index]? = some condition → condition.isConstant = false
  | [], _, _, _, _, within, _ => by simp at within
  | [_], _, _, _, _, within, _ => by simp at within
  | first :: branch :: rest, isOpen, index, condition, even, within, here => by
      match index with
      | 0 =>
          cases here
          exact open_condition on isOpen.1
      | 1 => cases even
      | index + 2 =>
          exact open_conditions on rest isOpen.2 index condition (by omega)
            (by simp only [List.length_cons] at within; omega) here

/-- A call that is left shows no work. A pure function is folded whatever it is given. -/
theorem left_call_unfoldable {optimizer : Optimizer}
    (on : optimizer.options.foldConstants = true) {builtin : Builtin} {arguments : List Tree}
    (left : optimizer.LeavesCall builtin arguments)
    (constant : arguments.all Tree.isConstant = true) : builtin.isFoldable arguments = false := by
  obtain ⟨seen, kept, same, looked⟩ := left
  have unfolded := kept.unfolded
  rw [on, Tree.all_constant_copies same, constant, Bool.true_and, Bool.true_and] at unfolded
  obtain rfl | isPure := looked
  · exact unfolded
  · rw [Builtin.isFoldable, isPure, Bool.true_or] at unfolded
    cases unfolded

theorem shows_no_work_plain {node : Tree} (settled : node.optimized = true)
    (plain : node.specialForm? = none)
    (call : ∀ name builtin, node.payload = .call name → Tree.isProcedureName name = false →
      registry.find? name = some builtin → node.children.all Tree.isConstant = true →
        builtin.isFoldable node.children = false) : node.ShowsNoWork registry := by
  have no : ∀ form, node.specialForm? ≠ some form := by simp [plain]
  refine ⟨settled, no _, fun special => absurd special (no _), ?_, call,
    fun special => absurd special (no _)⟩
  rintro (special | special)
  · exact absurd special (no _)
  · exact absurd special (no _)

theorem Tree.Normal.shows_no_work
    (apart : ∀ name form, SpecialForm.ofName? name = some form → registry.find? name = none)
    {tree : Tree} (normal : tree.Normal ⟨registry, {}⟩ True) :
    tree.Everywhere (Tree.ShowsNoWork registry) := by
  induction normal with
  | @leaf payload position facts isLeaf =>
      have plain : Tree.specialForm? ⟨payload, position, true, facts, []⟩ = none := by
        rw [Tree.specialForm?, Tree.functionName?, isLeaf]
        rfl
      refine .node (shows_no_work_plain rfl plain ?_) (List.forall_mem_nil _)
      rintro name builtin rfl
      cases isLeaf
  | @form name form position facts children special accepted simplified below induction =>
      refine .node ?_ induction
      have same : ∀ {other}, Tree.specialForm? ⟨.call name, position, true, facts, children⟩ =
          some other → form = other := fun other => Option.some.inj (special.symm.trans other)
      refine ⟨rfl, fun other => ?_, fun other => ?_, fun other => ?_, ?_, fun other => ?_⟩
      · obtain rfl := same other
        exact simplified
      · obtain rfl := same other
        obtain ⟨enough, flat, noVoids⟩ := simplified
        refine ⟨enough, flat, fun child member void => ?_⟩
        have isVoid : isVoidLiteral child = true := by
          rw [isVoidLiteral, Tree.value?, void]
          rfl
        rw [noVoids child member] at isVoid
        cases isVoid
      · obtain other | other := other
        · obtain rfl := same other
          exact open_conditions rfl children simplified
        · obtain rfl := same other
          exact open_conditions rfl children simplified
      · rintro _ builtin ⟨⟩ - found
        rw [apart name form special] at found
        cases found
      · obtain rfl := same other
        obtain ⟨-, defined, place, nameFacts, parts, valid, rfl, -⟩ := simplified
        exact ⟨_, defined, parts, rfl, rfl, valid⟩
  | @procedure name position facts children plain named below induction =>
      refine .node (shows_no_work_plain rfl plain ?_) induction
      rintro _ builtin ⟨⟩ unnamed
      rw [named] at unnamed
      cases unnamed
  | @function name builtin position facts children plain unnamed found left below induction =>
      refine .node (shows_no_work_plain rfl plain ?_) induction
      rintro _ builtin' ⟨⟩ - found' constant
      rw [found] at found'
      cases found'
      exact left_call_unfoldable rfl left constant

/-- One run of the optimizer with all simplifications is enough: every node of the outcome is
settled, no statements are written side by side, sequences are flat and without voids in front,
conditions are open, what can be folded is folded, and definitions have names that procedures can
have. That does not depend on how deep replacements are nested. -/
theorem optimized_in_normal_form
    (apart : ∀ name form, SpecialForm.ofName? name = some form → registry.find? name = none)
    {depth : Nat} {tree tree' : Tree} (unvisited : tree.Everywhere Tree.Unvisited)
    {store store' : Store}
    (done : runVisit (Optimizer.pass ⟨registry, {}⟩ depth) tree store = .ok tree' store') :
    tree'.Everywhere (Tree.ShowsNoWork registry) := by
  have allowed : tree.Everywhere fun node => node.specialForm? = some .procedure → True :=
    unvisited.mono fun _ _ _ => trivial
  exact (run_normal unvisited allowed done).shows_no_work apart

theorem optimized_in_normal_form_of_greeting :
    ∃ tree' store', Optimizer.optimize ⟨Prelude.registry, {}⟩ greeting {} = .ok tree' store' ∧
      tree'.Everywhere (Tree.ShowsNoWork Prelude.registry) ∧
      tree'.children.getLast?.map Tree.text = some "msg('hello you')" := by
  have optimized : ∃ tree' store',
      Optimizer.optimize ⟨Prelude.registry, {}⟩ greeting {} = .ok tree' store' ∧
        tree'.children.getLast?.map Tree.text = some "msg('hello you')" :=
    ⟨_, _, rfl, by decide +kernel⟩
  obtain ⟨tree', store', done, text⟩ := optimized
  have apart : ∀ name form, SpecialForm.ofName? name = some form →
      Prelude.registry.find? name = none := by
    intro name form special
    rw [SpecialForm.ofName?_eq_some_iff] at special
    subst special
    cases form <;> rfl
  have unvisited : greeting.Everywhere Tree.Unvisited := by decide
  exact ⟨tree', store', done, optimized_in_normal_form apart unvisited done, text⟩

end Readers

end TreeScript
