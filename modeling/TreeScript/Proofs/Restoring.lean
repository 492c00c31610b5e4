import TreeScript.Proofs.NormalForm
import TreeScript.Proofs.Remembering
/-!
# Optimizing again

The flags on an optimized script spare it a second visit. Without them it is visited again, from
the leaves to the root, and every node finds its children as they were, up to what they remember.
So what a node was checked for the first time holds again, and what was not to be simplified then is
not to be simplified now.

Main statement: a script in normal form that no flags protect comes out as it was, flags included,
as long as no call of a procedure is replaced.

With replacements one run is not enough. A definition in a branch that is always taken only hides
its name from the statements behind, and it is not before the second run that it stands among them.
-/

namespace TreeScript

set_option autoImplicit false

/-- What static checks say, and whether a single call may be folded, depends on the trees that are
given and not on what those remember. -/
def Registry.JudgesTrees (registry : Registry) : Prop :=
  ∀ name builtin, registry.find? name = some builtin → ∀ nodes nodes',
    Tree.copies nodes' = Tree.copies nodes →
      (∀ check, builtin.staticCheck = some check → check nodes' = check nodes) ∧
      ∀ accepts, builtin.foldWhen = some accepts → accepts nodes' = accepts nodes

namespace Tree

section FreshCopies

variable (tree : Tree)

@[simp] theorem fresh_copy_payload : tree.freshCopy.payload = tree.payload := by
  rcases tree with ⟨payload, position, optimized, facts, children⟩
  rfl

@[simp] theorem fresh_copy_children : tree.freshCopy.children = tree.children.map freshCopy := by
  rcases tree with ⟨payload, position, optimized, facts, children⟩
  exact freshCopies_eq_map children

@[simp] theorem special_form_fresh_copy : tree.freshCopy.specialForm? = tree.specialForm? := by
  rw [specialForm?, functionName?, fresh_copy_payload, specialForm?, functionName?]

@[simp] theorem parameter_fresh_copy :
    tree.freshCopy.parameter?.isSome = tree.parameter?.isSome :=
  tree.parameter_change fresh_copy_payload fresh_copy_children

end FreshCopies

end Tree

/-- An action that succeeds wherever the frames hold only templates of a kind. It has a good
result, and leaves the store and the kind of the templates as they are. -/
def Pass.Achieves {Result : Type} (trusts : Template → Prop) (good : Result → Prop)
    (action : Pass Result) : Prop :=
  ∀ progress, progress.scopes.Holds trusts → ∃ result after,
    action progress = .ok result after ∧ good result ∧ after.store = progress.store ∧
      after.scopes.Holds trusts

namespace Pass.Achieves

variable {Item Result : Type} {trusts : Template → Prop} {good : Item → Prop}
  {good' : Result → Prop}

theorem pure {item : Item} (holds : good item) :
    Pass.Achieves trusts good (Pure.pure item) :=
  fun progress all => ⟨item, progress, rfl, holds, rfl, all⟩

theorem bind {action : Pass Item} {next : Item → Pass Result}
    (first : Pass.Achieves trusts good action)
    (others : ∀ item, good item → Pass.Achieves trusts good' (next item)) :
    Pass.Achieves trusts good' (action >>= next) := by
  intro progress all
  obtain ⟨item, between, started, holds, sameStore, kept⟩ := first progress all
  obtain ⟨result, after, continued, holds', sameStore', kept'⟩ := others item holds between kept
  exact ⟨result, after, (bind_of_ok started).trans continued, holds', sameStore'.trans sameStore,
    kept'⟩

theorem imp {action : Pass Item} {better : Item → Prop}
    (achieves : Pass.Achieves trusts better action) (weaker : ∀ item, better item → good item) :
    Pass.Achieves trusts good action := by
  intro progress all
  obtain ⟨item, after, done, holds, rest⟩ := achieves progress all
  exact ⟨item, after, done, weaker item holds, rest⟩

theorem with_frame {action : Pass Item} (achieves : Pass.Achieves trusts good action)
    (kind : FrameKind) : Pass.Achieves trusts good (Pass.withFrame kind action) := by
  intro progress all
  obtain ⟨item, inner, done, holds, sameStore, kept⟩ :=
    achieves ⟨progress.scopes.push kind, progress.store⟩ (all.push kind)
  refine ⟨item, { inner with scopes := inner.scopes.pop }, ?_, holds, sameStore, kept.pop⟩
  unfold Pass.withFrame
  rw [done]

theorem check_arity {name : String} {arity : Arity} {node : Tree}
    (accepted : arity.accepts node.children.length = true) :
    Pass.Achieves trusts (fun _ => True) (checkArity name arity node) := by
  unfold checkArity
  rw [if_pos accepted]
  exact pure trivial

end Pass.Achieves

section Lists

variable {optimizer : Optimizer} {revisit : Option (Tree → Pass Tree)} {nodes : List Tree}

/-- Templates are there only if calls are not replaced. -/
abbrev Optimizer.Idle (optimizer : Optimizer) : Template → Prop :=
  fun _ => optimizer.options.inlineProcedures = false

/-- A visit gives the tree back when it is stripped of its flags and of what it remembers, except
for the latter. -/
def Restores (optimizer : Optimizer) (revisit : Option (Tree → Pass Tree)) (tree : Tree) : Prop :=
  Pass.Achieves optimizer.Idle (fun again => again.copy = tree.copy)
    (optimizer.visit revisit tree.freshCopy)

theorem visit_all_restores (restores : ∀ node ∈ nodes, Restores optimizer revisit node) :
    Pass.Achieves optimizer.Idle (fun again => Tree.copies again = Tree.copies nodes)
      (optimizer.visitAll revisit (Tree.freshCopies nodes)) := by
  induction nodes with
  | nil => exact .pure rfl
  | cons node rest induction =>
      rw [List.forall_mem_cons] at restores
      rw [Tree.freshCopies, Optimizer.visitAll]
      refine restores.1.bind fun node' same => ?_
      refine (induction restores.2).bind fun rest' others => .pure ?_
      rw [Tree.copies, Tree.copies, same, others]

theorem decide_of_copy (optimizer : Optimizer) {first second : Tree}
    (same : first.copy = second.copy) : optimizer.decide? first = optimizer.decide? second := by
  rw [Optimizer.decide?, ← Tree.value_copy, same, Tree.value_copy, Optimizer.decide?]

theorem visit_branches_restores : (nodes : List Tree) → optimizer.LeavesOpen nodes →
    (∀ node ∈ nodes, Restores optimizer revisit node) →
    Pass.Achieves optimizer.Idle (fun again => Tree.copies again = Tree.copies nodes)
      (optimizer.visitBranches revisit (Tree.freshCopies nodes))
  | [], _, _ => .pure rfl
  | [otherwise], _, restores => by
      rw [Tree.freshCopies, Tree.freshCopies, Optimizer.visitBranches]
      refine (restores otherwise (by simp)).bind fun branch same => .pure ?_
      simp only [Tree.copies, same]
  | condition :: branch :: rest, isOpen, restores => by
      rw [List.forall_mem_cons, List.forall_mem_cons] at restores
      obtain ⟨first, second, others⟩ := restores
      obtain ⟨undecided, openRest⟩ := isOpen
      rw [Tree.freshCopies, Tree.freshCopies, Optimizer.visitBranches]
      refine first.bind fun condition' sameCondition => ?_
      rw [decide_of_copy optimizer sameCondition, undecided]
      refine second.bind fun branch' sameBranch => ?_
      refine (visit_branches_restores rest openRest others).bind fun rest' same => .pure ?_
      simp only [Tree.copies, sameCondition, sameBranch, same]

theorem visit_parts_restores : (nodes : List Tree) →
    (∀ param ∈ nodes.dropLast, param.parameter?.isSome = true) →
    (∀ node ∈ nodes, Restores optimizer revisit node) →
    Pass.Achieves optimizer.Idle (fun again => Tree.copies again = Tree.copies nodes)
      (optimizer.visitParts revisit (Tree.freshCopies nodes))
  | [], _, _ => .pure rfl
  | [body], _, restores => by
      rw [Tree.freshCopies, Tree.freshCopies, Optimizer.visitParts]
      refine ((restores body (by simp)).with_frame .procedure).bind fun body' same => .pure ?_
      simp only [Tree.copies, same]
  | param :: next :: rest, written, restores => by
      rw [List.dropLast_cons_cons, List.forall_mem_cons] at written
      rw [List.forall_mem_cons] at restores
      have checked : Pass.Achieves optimizer.Idle (fun _ => True)
          (checkParameter param.freshCopy) := by
        unfold checkParameter
        rw [if_pos (by rw [Tree.parameter_fresh_copy]; exact written.1)]
        exact .pure trivial
      have later := visit_parts_restores (next :: rest) written.2 restores.2
      rw [Tree.freshCopies, Tree.freshCopies, Optimizer.visitParts, ← Tree.freshCopies]
      refine checked.bind fun _ _ => restores.1.bind fun param' same => ?_
      refine later.bind fun rest' others => .pure ?_
      rw [Tree.copies, same, others, ← Tree.copies]

/-- An analysis changes what the body remembers and nothing else. -/
theorem analyzed_copy (registry : Registry) (name : String) (params : List Tree) (body : Tree) :
    (Definition.analyze registry name params body).2.copy = body.copy := by
  obtain same | same | ⟨expression, expression', returned, noted, same⟩ :=
    analyzed_body registry name params body
  · rw [same]
  · rw [same, Tree.copy_remember]
  · have kept : expression'.copy = expression.copy := by
      obtain rfl | rfl := noted
      · exact Tree.copy_remember _ _
      · rw [Tree.copy_remember, Tree.copy_remember]
    obtain ⟨-, only⟩ := Tree.returned_eq_some returned
    rcases body with ⟨payload, position, optimized, facts, children⟩
    obtain rfl : children = [expression] := only
    rw [same]
    unfold Tree.remember Tree.ask
    split
    · simp only [Tree.copy, Tree.copies, kept]
    · simp only [Tree.copy, Tree.copies, kept]

/-- A definition is left as it is when it is recorded, and its template is never used. -/
theorem record_restores (placement : Placement) (node : Tree)
    (allowed : optimizer.options.inlineProcedures = false) :
    Pass.Achieves optimizer.Idle (fun again => again.copy = node.copy)
      (optimizer.recordDefinition placement node) := by
  intro progress all
  obtain ⟨-, same⟩ | ⟨nameNode, defined, parts, parts', definition, shape, -, same, analysis⟩ :=
    record_definition_cases optimizer placement node progress
  · exact ⟨node, progress, same, rfl, rfl, all⟩
  · refine ⟨_, _, same, ?_, rfl, all.define defined (fun _ _ => allowed) placement⟩
    rcases node with ⟨payload, position, optimized, facts, children⟩
    obtain rfl : children = nameNode :: parts := shape
    obtain ⟨rfl, rfl, -⟩ | ⟨params, body, rfl, -, rfl⟩ := analysis
    · rfl
    · simp only [Tree.copy, Tree.copies_eq_map, List.map_cons, List.map_append, analyzed_copy,
        List.map_nil]

theorem definition_restores {name : String} {position : Position} {facts : Facts}
    (placement : Placement)
    (simplified : SpecialForm.procedure.Simplified optimizer
      (optimizer.options.inlineProcedures = false) nodes)
    (restores : ∀ node ∈ nodes, Restores optimizer revisit node) :
    Pass.Achieves optimizer.Idle
      (fun again => again.copy = Tree.copy ⟨.call name, position, true, facts, nodes⟩)
      (optimizer.visitDefinition revisit (Tree.freshCopies nodes) >>= fun parts =>
        optimizer.recordDefinition placement ⟨.call name, position, true, {}, parts⟩) := by
  obtain ⟨allowed, defined, place, nameFacts, parts, valid, rfl, written⟩ := simplified
  rw [List.forall_mem_cons] at restores
  have normalized : normalizeName (Tree.freshCopy
      ⟨.literal (.string defined), place, true, nameFacts, []⟩) =
        pure ((Tree.literal (.string defined) place).settle true) := by
    unfold normalizeName
    have found : (Tree.procedureName? (Tree.freshCopy
        ⟨.literal (.string defined), place, true, nameFacts, []⟩)).filter Tree.isProcedureName =
          some defined := Option.filter_eq_some_iff.mpr ⟨rfl, valid⟩
    rw [found]
    rfl
  rw [Tree.freshCopies, Optimizer.visitDefinition, normalized, pure_bind, bind_assoc]
  refine (visit_parts_restores parts written restores.2).bind fun parts' same => ?_
  rw [pure_bind]
  refine (record_restores placement _ allowed).imp fun again kept => ?_
  rw [kept]
  simp only [Tree.copy, Tree.copies, same]
  rfl

theorem splice_statement {statement : Tree}
    (flat : statement.specialForm?.any SpecialForm.isSequence = false) :
    splice statement = [statement] := by
  rw [splice, if_neg (by rw [flat]; exact Bool.false_ne_true)]

theorem visit_statements_restores
    (restores : ∀ node ∈ nodes, node.Everywhere (Restores optimizer revisit))
    (normal : ∀ node ∈ nodes, node.Normal optimizer (optimizer.options.inlineProcedures = false))
    (flat : ∀ node ∈ nodes, node.specialForm?.any SpecialForm.isSequence = false) :
    Pass.Achieves optimizer.Idle (fun again => Tree.copies again = Tree.copies nodes)
      (optimizer.visitStatements revisit (Tree.freshCopies nodes)) := by
  induction nodes with
  | nil => exact .pure rfl
  | cons node rest induction =>
      rw [List.forall_mem_cons] at restores normal flat
      have others := induction restores.2 normal.2 flat.2
      have flattened : ∀ node' : Tree, node'.copy = node.copy →
          Pass.Achieves optimizer.Idle
            (fun again => Tree.copies again = Tree.copies (node :: rest))
            (optimizer.visitStatements revisit (Tree.freshCopies rest) >>= fun rest' =>
              pure (splice node' ++ rest')) := by
        intro node' same
        refine others.bind fun rest' sameRest => .pure ?_
        have flatAgain : node'.specialForm?.any SpecialForm.isSequence = false := by
          rw [← Tree.special_form_copy, same, Tree.special_form_copy]
          exact flat.1
        rw [splice_statement flatAgain, List.singleton_append, Tree.copies, same, sameRest,
          ← Tree.copies]
      rw [Tree.freshCopies]
      by_cases defines : node.specialForm? = some .procedure
      · rcases node with ⟨payload, position, optimized, facts, children⟩
        obtain rfl : optimized = true := normal.1.settled
        cases payload with
        | literal value => cases defines
        | «variable» name => cases defines
        | call name =>
            obtain ⟨accepted, simplified⟩ := normal.1.formed defines
            have accepts : SpecialForm.procedure.arity.accepts
                (Tree.freshCopies children).length = true := by
              rw [Tree.freshCopies_eq_map, List.length_map]
              exact accepted
            rw [Tree.freshCopy, visit_definition_statement_eq _ _ defines]
            refine (Pass.Achieves.check_arity accepts).bind fun _ _ => ?_
            rw [← bind_assoc]
            exact (definition_restores .direct simplified fun child member =>
              (restores.1.inside child member).here).bind flattened
      · have other : node.freshCopy.specialForm? ≠ some .procedure := by
          rw [Tree.special_form_fresh_copy]
          exact defines
        rw [visit_statement_eq _ _ other]
        exact restores.1.here.bind flattened

end Lists

section Nodes

variable {optimizer : Optimizer} {revisit : Option (Tree → Pass Tree)} {name : String}
  {position : Position} {facts : Facts} {children : List Tree}

theorem drop_voids_keeps : (statements : List Tree) →
    (∀ statement ∈ statements.dropLast, isVoidLiteral statement = false) →
    dropVoids statements = statements
  | [], _ => rfl
  | [_], _ => rfl
  | first :: second :: rest, counts => by
      rw [List.dropLast_cons_cons, List.forall_mem_cons] at counts
      rw [dropVoids, if_neg (by rw [counts.1]; exact Bool.false_ne_true),
        drop_voids_keeps (second :: rest) counts.2]

theorem collapse_many (position : Position) {statements : List Tree}
    (many : 2 ≤ statements.length) :
    collapse position statements = .call SpecialForm.sequence.name statements position := by
  match statements with
  | first :: second :: rest => rfl
  | [_] => cases Nat.lt_irrefl 1 many

theorem resolve_many {node : Tree} {branches : List Tree} (many : 2 ≤ branches.length) :
    resolve node branches = node.setChildren branches := by
  match branches with
  | first :: second :: rest => rfl
  | [_] => cases Nat.lt_irrefl 1 many

theorem Tree.settle_copy (tree : Tree) (flag : Bool) :
    (tree.settle flag).copy = tree.copy.settle flag := by
  rcases tree with ⟨payload, position, optimized, facts, children⟩
  rfl

theorem inline_call_restores (node : Tree) :
    Pass.Achieves optimizer.Idle (fun again => again = node)
      (optimizer.inlineCall revisit name node) := by
  intro progress all
  refine ⟨node, progress, ?_, rfl, rfl, all⟩
  cases active : optimizer.options.inlineProcedures with
  | false => exact inline_call_off _ _ active node progress
  | true =>
      unfold Optimizer.inlineCall
      rw [bind_of_ok (get_apply progress), active]
      cases found : progress.scopes.find? name with
      | none => rfl
      | some definition =>
          cases definition with
          | hidden => rfl
          | inlinable template =>
              have off := all.of_known (Scopes.known_eq_some.mpr found)
              rw [Optimizer.Idle, active] at off
              cases off

theorem fold_call_restores (judges : optimizer.registry.JudgesTrees) {builtin : Builtin}
    (found : optimizer.registry.find? name = some builtin)
    (left : optimizer.LeavesCall builtin children) {children' : List Tree}
    (same : Tree.copies children' = Tree.copies children) :
    Pass.Achieves optimizer.Idle
      (fun again => again = ⟨.call name, position, false, {}, children'⟩)
      (optimizer.foldCall name ⟨.call name, position, false, {}, children'⟩) := by
  obtain ⟨seen, kept, sameSeen, -⟩ := left
  have same' : Tree.copies children' = Tree.copies seen := same.trans sameSeen.symm
  obtain ⟨checks, folds⟩ := judges name builtin found seen children' same'
  have accepted : builtin.arity.accepts children'.length = true := by
    rw [Tree.copies_length same']
    exact kept.accepted
  have checked : checkStatically optimizer name builtin
      ⟨.call name, position, false, {}, children'⟩ = pure () := by
    unfold checkStatically
    cases check : builtin.staticCheck with
    | none => rfl
    | some test =>
        dsimp only
        rw [checks test check, kept.checked test check]
  have foldable : builtin.isFoldable children' = builtin.isFoldable seen := by
    unfold Builtin.isFoldable
    cases accepts : builtin.foldWhen with
    | none => rfl
    | some test => simp only [Option.any_some, folds test accepts]
  have constant := Tree.all_constant_copies same'
  have unfolded : ¬(optimizer.options.foldConstants && children'.all Tree.isConstant &&
      builtin.isFoldable children') = true := by
    rw [foldable, constant, kept.unfolded]
    exact Bool.false_ne_true
  rw [fold_call_eq _ found, checked, pure_bind, fold_checked_stays _ unfolded]
  exact (Pass.Achieves.check_arity accepted).bind fun _ _ => .pure rfl

theorem form_restores {form : SpecialForm} (special : SpecialForm.ofName? name = some form)
    (accepted : form.arity.accepts children.length = true)
    (simplified : form.Simplified optimizer (optimizer.options.inlineProcedures = false) children)
    (normal : ∀ child ∈ children,
      child.Normal optimizer (optimizer.options.inlineProcedures = false))
    (restores : ∀ child ∈ children, child.Everywhere (Restores optimizer revisit)) :
    Pass.Achieves optimizer.Idle (fun out => (out.settle true).copy =
        Tree.copy ⟨.call name, position, true, facts, children⟩)
      (visitForm optimizer revisit
        ⟨.call name, position, false, {}, Tree.freshCopies children⟩ form) := by
  have here := fun child member => (restores child member).here
  -- what is left of the form once its arguments are back in their places
  have rebuilt : ∀ {children' : List Tree}, Tree.copies children' = Tree.copies children →
      Tree.copy ⟨.call name, position, true, {}, children'⟩ =
        Tree.copy ⟨.call name, position, true, facts, children⟩ := by
    intro children' same
    simp only [Tree.copy, same]
  have passing := visit_all_restores here
  cases form with
  | autoConcat => exact simplified.elim
  | sequence =>
      obtain ⟨enough, flat, noVoids⟩ := simplified
      refine ((visit_statements_restores restores normal flat).with_frame .sequence).bind
        fun statements same => .pure ?_
      have counts := Tree.forall_of_copies (Tree.drop_last_copies same)
        (fun tree => by rw [Tree.is_void_literal_copy]) noVoids
      obtain rfl := (SpecialForm.ofName?_eq_some_iff name .sequence).mp special
      rw [drop_voids_keeps statements counts,
        collapse_many position (by rw [Tree.copies_length same]; exact enough)]
      exact rebuilt same
  | conditional | choice =>
      have enough : 2 ≤ children.length := by
        simp [SpecialForm.arity] at accepted
        omega
      refine (visit_branches_restores children simplified here).bind fun branches same => .pure ?_
      rw [resolve_many (by rw [Tree.copies_length same]; exact enough)]
      exact rebuilt same
  | procedure =>
      have defining : Pass.Achieves optimizer.Idle (fun again : Tree => again.copy =
          Tree.copy ⟨.call name, position, true, facts, children⟩) _ :=
        definition_restores .nested simplified here
      refine defining.imp fun again same => ?_
      rw [Tree.settle_copy, same]
      rfl
  | assignment =>
      obtain ⟨target, written, rest, rfl, named⟩ := simplified
      have shaped : checkAssignment (Tree.freshCopies (target :: rest)) = pure () := by
        rcases target with ⟨payload, place, optimized, facts, below⟩
        obtain rfl : payload = .variable written := named
        rfl
      rw [visitForm, shaped, pure_bind]
      exact passing.bind fun children' same => .pure (rebuilt same)
  | closure =>
      exact (passing.with_frame .closure).bind fun children' same => .pure (rebuilt same)
  | returning | execution => exact passing.bind fun children' same => .pure (rebuilt same)

end Nodes

section Trees

variable {optimizer : Optimizer} (judges : optimizer.registry.JudgesTrees)

include judges

/-- A visit gives a tree in normal form back, by induction on the tree. -/
theorem normal_restores {revisit : Option (Tree → Pass Tree)} {tree : Tree}
    (normal : tree.Normal optimizer (optimizer.options.inlineProcedures = false)) :
    tree.Everywhere (Restores optimizer revisit) := by
  induction normal with
  | @leaf payload position facts isLeaf =>
      refine .node (fun progress all => ?_) (List.forall_mem_nil _)
      have unnamed : Tree.functionName? ⟨payload, position, false, {}, []⟩ = none := isLeaf
      exact ⟨_, progress, visit_leaf _ _ rfl unnamed progress, rfl, rfl, all⟩
  | @form name form position facts children special accepted simplified below induction =>
      refine .node ?_ induction
      have accepts : form.arity.accepts (Tree.freshCopies children).length = true := by
        rw [Tree.freshCopies_eq_map, List.length_map]
        exact accepted
      rw [Restores, Tree.freshCopy, visit_form_eq _ _ special]
      refine (Pass.Achieves.check_arity accepts).bind fun _ _ => ?_
      exact (form_restores special accepted simplified below induction).bind
        fun out same => .pure same
  | @procedure name position facts children plain named below induction =>
      refine .node ?_ induction
      have here := fun child member => (induction child member).here
      rw [Restores, Tree.freshCopy, visit_call_eq _ _ plain]
      refine (visit_all_restores here).bind fun children' same => ?_
      rw [visitCall, if_pos named]
      refine (inline_call_restores _).bind fun out kept => .pure ?_
      subst kept
      simp only [Tree.settle, Tree.copy, same]
  | @function name builtin position facts children plain unnamed found left below induction =>
      refine .node ?_ induction
      have here := fun child member => (induction child member).here
      rw [Restores, Tree.freshCopy, visit_call_eq _ _ plain]
      refine (visit_all_restores here).bind fun children' same => ?_
      rw [visitCall, if_neg (by rw [unnamed]; exact Bool.false_ne_true)]
      refine (fold_call_restores judges found left same).bind fun out kept => .pure ?_
      subst kept
      simp only [Tree.settle, Tree.copy, same]

theorem pass_restores (depth : Nat) {tree : Tree}
    (normal : tree.Normal optimizer (optimizer.options.inlineProcedures = false)) :
    Pass.Achieves optimizer.Idle (fun again => again.copy = tree.copy)
      (optimizer.pass depth tree.freshCopy) := by
  cases depth with
  | zero => exact (normal_restores judges normal).here
  | succ depth => exact (normal_restores judges normal).here

/-- One run of the optimizer is enough even for a script without flags: what it has left comes out
of a second run as it was, flags and positions included, without an error and without an effect.
Only what nodes remember may be different. If calls are replaced, the script must define no
procedure. -/
theorem optimized_comes_out_again {tree tree' : Tree}
    (replaces : optimizer.options.inlineProcedures = false ∨
      tree.Everywhere fun node => node.specialForm? ≠ some .procedure)
    (unvisited : tree.Everywhere Tree.Unvisited) {depth : Nat} {store store' : Store}
    (done : runVisit (optimizer.pass depth) tree store = .ok tree' store') (store'' : Store) :
    ∃ again, runVisit (optimizer.pass depth) tree'.freshCopy store'' = .ok again store'' ∧
      again.copy = tree'.copy := by
  have allowed : tree.Everywhere fun node => node.specialForm? = some .procedure →
      optimizer.options.inlineProcedures = false := by
    obtain off | none := replaces
    · exact unvisited.mono fun _ _ _ => off
    · exact none.mono fun _ absent defines => absurd defines absent
  have normal := run_normal unvisited allowed done
  have nothing : Scopes.initial.Holds optimizer.Idle := by
    intro frame member name template found
    rw [List.mem_singleton.mp member] at found
    cases found
  obtain ⟨again, after, ran, same, sameStore, -⟩ :=
    pass_restores judges depth normal ⟨Scopes.initial, store''⟩ nothing
  refine ⟨again, ?_, same⟩
  rw [runVisit, ran]
  exact congrArg (EStateM.Result.ok again) sameStore

end Trees

theorem Tree.value_at_copies {nodes nodes' : List Tree} (same : copies nodes' = copies nodes)
    (index : Nat) : nodes'[index]?.bind value? = nodes[index]?.bind value? := by
  have copied : ∀ nodes : List Tree,
      (copies nodes)[index]?.bind value? = nodes[index]?.bind value? := by
    intro nodes
    rw [copies_eq_map, List.getElem?_map]
    cases nodes[index]? with
    | none => rfl
    | some node => exact node.value_copy
  rw [← copied, same, copied]

/-- The one check in the prelude looks at the values of its arguments. -/
theorem Prelude.registry_judges_trees : Prelude.registry.JudgesTrees := by
  intro name builtin found nodes nodes' same
  let judges : Builtin → Prop := fun builtin =>
    (∀ check, builtin.staticCheck = some check → check nodes' = check nodes) ∧
      ∀ accepts, builtin.foldWhen = some accepts → accepts nodes' = accepts nodes
  have first : nodes'.head?.bind Tree.value? = nodes.head?.bind Tree.value? := by
    rw [List.head?_eq_getElem?, List.head?_eq_getElem?, Tree.value_at_copies same]
  have all : ∀ builtin ∈ builtins, judges builtin := by
    refine builtins_hold ?_ ?_ ?_ ?_
    · exact fun _ _ _ _ _ _ _ => ⟨nofun, nofun⟩
    · exact fun _ => ⟨nofun, nofun⟩
    · exact fun _ => ⟨nofun, nofun⟩
    · intro docs
      refine ⟨fun check given => ?_, fun accepts given => ?_⟩
      · cases given
        funext catalogue
        rw [checkDocs, checkDocs, first, Tree.value_at_copies same]
      · cases given
        rw [docsAreFixed, docsAreFixed, first]
  exact all builtin (Registry.find_of_list found).1

theorem optimized_comes_out_again_of_greeting :
    ∃ tree' store' again,
      Optimizer.optimize ⟨Prelude.registry, { inlineProcedures := false }⟩ greeting {} =
        .ok tree' store' ∧
      Optimizer.optimize ⟨Prelude.registry, { inlineProcedures := false }⟩ tree'.freshCopy {} =
        .ok again {} ∧
      again.copy = tree'.copy ∧ tree'.optimized = true := by
  have optimized : ∃ tree' store',
      Optimizer.optimize ⟨Prelude.registry, { inlineProcedures := false }⟩ greeting {} =
        .ok tree' store' ∧ tree'.optimized = true := ⟨_, _, rfl, rfl⟩
  obtain ⟨tree', store', done, settled⟩ := optimized
  have unvisited : greeting.Everywhere Tree.Unvisited := by decide
  obtain ⟨again, ran, same⟩ := @optimized_comes_out_again
    ⟨Prelude.registry, { inlineProcedures := false }⟩ Prelude.registry_judges_trees greeting tree'
    (.inl rfl) unvisited _ {} store' done {}
  exact ⟨tree', store', again, done, ran, same, settled⟩

def redefinition : Tree :=
  let definition (value : Int64) : Tree := .call SpecialForm.procedure.name
    [.literal (.string "_number") .unknown,
      .call SpecialForm.returning.name [.literal (.int value) .unknown] .unknown] .unknown
  .call SpecialForm.sequence.name
    [definition 1,
      .call SpecialForm.conditional.name [.literal (.bool true) .unknown, definition 2] .unknown,
      .call "msg" [.call "_number" [] .unknown] .unknown] .unknown

/-- A second run that replaces calls may replace more of them. -/
theorem replacing_takes_two_runs :
    ∃ tree' store' again store'',
      Optimizer.optimize ⟨Prelude.registry, {}⟩ redefinition {} = .ok tree' store' ∧
      Optimizer.optimize ⟨Prelude.registry, {}⟩ tree'.freshCopy store' = .ok again store'' ∧
      again.text ≠ tree'.text :=
  ⟨_, _, _, _, rfl, rfl, by decide +kernel⟩

end TreeScript
