import TreeScript.Optimize
import TreeScript.Proofs.Evaluation
/-!
# The steps of a visit

What a visit that succeeds has done, one lemma for each way in which it goes about a node or a list
of nodes, so that later proofs never open the optimizer itself.
-/

namespace TreeScript

set_option autoImplicit false

/-- A visit of a whole script starts where nothing is defined. -/
theorem run_visit_ok {visitor : Tree → Pass Tree} {tree tree' : Tree} {store store' : Store}
    (done : runVisit visitor tree store = .ok tree' store') :
    ∃ after, visitor tree ⟨Scopes.initial, store⟩ = .ok tree' after ∧ after.store = store' := by
  unfold runVisit at done
  split at done
  · rename_i after visited
    cases done
    exact ⟨after, visited, rfl⟩
  · cases done

section Steps

variable (optimizer : Optimizer) (revisit : Option (Tree → Pass Tree))

/-- What a visit makes of a special form that gets as many arguments as it takes. -/
def visitForm (node : Tree) (form : SpecialForm) : Pass Tree :=
  match form with
  | .autoConcat | .sequence => do
      let statements ←
        Pass.withFrame .sequence (optimizer.visitStatements revisit node.children)
      pure (collapse node.position (dropVoids statements))
  | .conditional | .choice => do
      pure (resolve node (← optimizer.visitBranches revisit node.children))
  | .procedure => do
      let parts ← optimizer.visitDefinition revisit node.children
      optimizer.recordDefinition .nested ((node.setChildren parts).settle true)
  | .assignment => do
      checkAssignment node.children
      pure (node.setChildren (← optimizer.visitAll revisit node.children))
  | .closure => do
      pure (node.setChildren
        (← Pass.withFrame .closure (optimizer.visitAll revisit node.children)))
  | .returning | .execution => do
      pure (node.setChildren (← optimizer.visitAll revisit node.children))

def visitCall (name : String) (call : Tree) : Pass Tree :=
  if Tree.isProcedureName name then optimizer.inlineCall revisit name call
  else optimizer.foldCall name call

theorem visit_settled {node : Tree} (settled : node.optimized = true) (progress : Progress) :
    optimizer.visit revisit node progress =
      .ok node { progress with scopes := progress.scopes.shadow node } := by
  rcases node with ⟨payload, position, optimized, facts, children⟩
  subst settled
  rfl

theorem visit_leaf {node : Tree} (unsettled : node.optimized = false)
    (leaf : node.functionName? = none) (progress : Progress) :
    optimizer.visit revisit node progress = .ok (node.settle true) progress := by
  rcases node with ⟨payload, position, optimized, facts, children⟩
  subst unsettled
  cases payload with
  | call name => cases leaf
  | _ => rfl

variable {name : String} {position : Position} {facts : Facts} {children : List Tree}
  {progress after : Progress} {node' : Tree}

theorem check_arity_ok {arity : Arity} {node : Tree}
    (done : checkArity name arity node progress = .ok () after) :
    arity.accepts node.children.length = true ∧ after = progress := by
  unfold checkArity at done
  split at done
  · rename_i accepted
    cases done
    exact ⟨accepted, rfl⟩
  · cases done

theorem visit_form_eq {form : SpecialForm} (special : SpecialForm.ofName? name = some form) :
    optimizer.visit revisit ⟨.call name, position, false, facts, children⟩ =
      (checkArity form.name form.arity ⟨.call name, position, false, facts, children⟩ >>= fun _ =>
        visitForm optimizer revisit ⟨.call name, position, false, facts, children⟩ form >>=
          fun out => pure (out.settle true)) := by
  simp only [Optimizer.visit, special]
  cases form <;> simp only [visitForm, bind_assoc, pure_bind] <;> rfl

theorem visit_form_ok {form : SpecialForm} (special : SpecialForm.ofName? name = some form)
    (done : optimizer.visit revisit ⟨.call name, position, false, facts, children⟩ progress =
      .ok node' after) :
    form.arity.accepts children.length = true ∧
      ∃ out, visitForm optimizer revisit ⟨.call name, position, false, facts, children⟩ form
        progress = .ok out after ∧ node' = out.settle true := by
  rw [visit_form_eq _ _ special] at done
  rcases bind_eq_ok done with ⟨_, start, checked, continued⟩
  rcases check_arity_ok checked with ⟨accepted, rfl⟩
  rcases bind_eq_ok continued with ⟨out, final, formed, built⟩
  cases built
  exact ⟨accepted, out, formed, rfl⟩

theorem visit_call_eq (plain : SpecialForm.ofName? name = none) :
    optimizer.visit revisit ⟨.call name, position, false, facts, children⟩ =
      (optimizer.visitAll revisit children >>= fun children' =>
        visitCall optimizer revisit name ⟨.call name, position, false, {}, children'⟩ >>=
          fun out => pure (out.settle true)) := by
  simp only [Optimizer.visit, plain, visitCall, Bool.false_eq_true, if_false]
  congr 1
  funext children'
  split <;> rfl

theorem visit_call_ok (plain : SpecialForm.ofName? name = none)
    (done : optimizer.visit revisit ⟨.call name, position, false, facts, children⟩ progress =
      .ok node' after) :
    ∃ children' between out,
      optimizer.visitAll revisit children progress = .ok children' between ∧
      visitCall optimizer revisit name ⟨.call name, position, false, {}, children'⟩ between =
        .ok out after ∧ node' = out.settle true := by
  rw [visit_call_eq _ _ plain] at done
  rcases bind_eq_ok done with ⟨children', between, visited, done⟩
  rcases bind_eq_ok done with ⟨out, final, called, built⟩
  cases built
  exact ⟨children', between, out, visited, called, rfl⟩

theorem with_frame_ok {Result : Type} {kind : FrameKind} {action : Pass Result} {result : Result}
    (done : Pass.withFrame kind action progress = .ok result after) :
    ∃ inner, action { progress with scopes := progress.scopes.push kind } = .ok result inner ∧
      after = { inner with scopes := inner.scopes.pop } := by
  unfold Pass.withFrame at done
  split at done
  · rename_i result' inner ran
    cases done
    exact ⟨inner, ran, rfl⟩
  · cases done

def checkStatically (name : String) (builtin : Builtin) (node : Tree) : Pass Unit :=
  match builtin.staticCheck with
  | none => pure ()
  | some check =>
      match check node.children optimizer.registry.catalogue with
      | .ok _ => pure ()
      | .error fault => throw (.invalidArgument name fault node.position)

theorem check_statically_ok {builtin : Builtin} {node : Tree}
    (done : checkStatically optimizer name builtin node progress = .ok () after) :
    (∀ test, builtin.staticCheck = some test →
      test node.children optimizer.registry.catalogue = .ok ()) ∧ after = progress := by
  unfold checkStatically at done
  cases check : builtin.staticCheck with
  | none =>
      simp only [check] at done
      cases done
      exact ⟨nofun, rfl⟩
  | some test =>
      cases verdict : test node.children optimizer.registry.catalogue with
      | ok _ =>
          simp only [check, verdict] at done
          cases done
          refine ⟨fun _ same => ?_, rfl⟩
          cases same
          exact verdict
      | error fault =>
          simp only [check, verdict] at done
          cases done

def foldChecked (name : String) (builtin : Builtin) (node : Tree) : Pass Tree :=
  if optimizer.options.foldConstants && node.children.all Tree.isConstant &&
      builtin.isFoldable node.children then
    fun progress =>
      match builtin.run ⟨node.position, none, optimizer.registry.catalogue⟩
          (node.children.filterMap Tree.value?) progress.store with
      | .ok value store => .ok (Tree.literal value node.position) { progress with store }
      | .error fault store =>
          .error (.foldFailed name fault node.position) { progress with store }
  else pure node

theorem fold_checked_folds {builtin : Builtin} {node : Tree}
    (allowed : (optimizer.options.foldConstants && node.children.all Tree.isConstant &&
      builtin.isFoldable node.children) = true) (progress : Progress) :
    foldChecked optimizer name builtin node progress =
      match builtin.run ⟨node.position, none, optimizer.registry.catalogue⟩
          (node.children.filterMap Tree.value?) progress.store with
      | .ok value store => .ok (Tree.literal value node.position) { progress with store }
      | .error fault store =>
          .error (.foldFailed name fault node.position) { progress with store } :=
  congrFun (if_pos allowed) progress

theorem fold_checked_stays {builtin : Builtin} {node : Tree}
    (refused : ¬(optimizer.options.foldConstants && node.children.all Tree.isConstant &&
      builtin.isFoldable node.children) = true) :
    foldChecked optimizer name builtin node = pure node :=
  if_neg refused

theorem fold_call_eq {builtin : Builtin} (found : optimizer.registry.find? name = some builtin)
    (node : Tree) :
    optimizer.foldCall name node =
      (checkArity name builtin.arity node >>= fun _ =>
        checkStatically optimizer name builtin node >>= fun _ =>
          foldChecked optimizer name builtin node) := by
  unfold Optimizer.foldCall checkStatically
  simp only [found]
  congr 1
  funext _
  cases builtin.staticCheck with
  | none => rfl
  | some test =>
      dsimp only
      cases test node.children optimizer.registry.catalogue <;> rfl

theorem fold_call_missing (missing : optimizer.registry.find? name = none) (node : Tree) :
    optimizer.foldCall name node = throw (.unknownFunction name node.position) := by
  unfold Optimizer.foldCall
  simp only [missing]

theorem fold_call_ok {node : Tree}
    (done : optimizer.foldCall name node progress = .ok node' after) :
    ∃ builtin, optimizer.registry.find? name = some builtin ∧
      builtin.arity.accepts node.children.length = true ∧
      (node' = node ∧ after = progress ∨
        ∃ value store', node' = Tree.literal value node.position ∧
          after = { progress with store := store' } ∧
          node.children.all Tree.isConstant = true ∧ builtin.isFoldable node.children = true ∧
          builtin.run ⟨node.position, none, optimizer.registry.catalogue⟩
            (node.children.filterMap Tree.value?) progress.store = .ok value store') := by
  cases found : optimizer.registry.find? name with
  | none =>
      rw [fold_call_missing _ found] at done
      cases done
  | some builtin =>
      rw [fold_call_eq _ found] at done
      rcases bind_eq_ok done with ⟨_, start, checked, continued⟩
      rcases check_arity_ok checked with ⟨accepted, rfl⟩
      rcases bind_eq_ok continued with ⟨_, middle, passed, folded⟩
      obtain ⟨-, rfl⟩ := check_statically_ok _ passed
      refine ⟨builtin, rfl, accepted, ?_⟩
      by_cases allowed : (optimizer.options.foldConstants && node.children.all Tree.isConstant &&
          builtin.isFoldable node.children) = true
      · rw [fold_checked_folds _ allowed] at folded
        simp only [Bool.and_eq_true] at allowed
        split at folded
        · rename_i value store' ran
          cases folded
          exact Or.inr ⟨value, store', rfl, rfl, allowed.1.2, allowed.2, ran⟩
        · cases folded
      · rw [fold_checked_stays _ allowed] at folded
        cases folded
        exact Or.inl ⟨rfl, rfl⟩

theorem inline_call_off (off : optimizer.options.inlineProcedures = false) (node : Tree)
    (progress : Progress) :
    optimizer.inlineCall revisit name node progress = .ok node progress := by
  unfold Optimizer.inlineCall
  rw [off]
  rfl

/-- A call of a procedure is replaced by the expression of a known template, which is visited in
turn, or it stays and its arguments remember some of their names. -/
theorem inline_call_cases (name : String) (node : Tree) (progress : Progress) :
    (∃ template again replacement, optimizer.options.inlineProcedures = true ∧
        progress.scopes.find? name = some (.inlinable template) ∧ revisit = some again ∧
        template.instantiate? optimizer.registry node.children node.position = some replacement ∧
        optimizer.inlineCall revisit name node progress = again replacement progress) ∨
      ∃ node', optimizer.inlineCall revisit name node progress = .ok node' progress ∧
        (node' = node ∨
          node' = { node with children := Template.inspect optimizer.registry node.children }) := by
  unfold Optimizer.inlineCall
  generalize inlines : optimizer.options.inlineProcedures = inlining
  generalize found : progress.scopes.find? name = definition
  rw [bind_of_ok (get_apply progress), found]
  match inlining, definition, revisit with
  | true, some (.inlinable template), some again =>
      cases instantiated :
          template.instantiate? optimizer.registry node.children node.position with
      | some replacement =>
          exact Or.inl ⟨template, again, replacement, rfl, rfl, rfl, instantiated,
            by simp only [instantiated]⟩
      | none =>
          simp only [instantiated]
          split
          · exact Or.inr ⟨_, rfl, Or.inr rfl⟩
          · exact Or.inr ⟨_, rfl, Or.inl rfl⟩
  | false, _, _ | true, none, _ | true, some .hidden, _ | true, some (.inlinable _), none =>
      exact Or.inr ⟨node, rfl, Or.inl rfl⟩

theorem inline_call_ok {node : Tree}
    (done : optimizer.inlineCall revisit name node progress = .ok node' after) :
    (∃ template again replacement, optimizer.options.inlineProcedures = true ∧
        progress.scopes.find? name = some (.inlinable template) ∧ revisit = some again ∧
        template.instantiate? optimizer.registry node.children node.position = some replacement ∧
        again replacement progress = .ok node' after) ∨
      after = progress ∧ (node' = node ∨
        node' = { node with children := Template.inspect optimizer.registry node.children }) := by
  obtain ⟨template, again, replacement, inlines, found, revisits, instantiated, same⟩ |
    ⟨kept, same, shape⟩ := inline_call_cases optimizer revisit name node progress
  · rw [same] at done
    exact Or.inl ⟨template, again, replacement, inlines, found, revisits, instantiated, done⟩
  · rw [same] at done
    cases done
    exact Or.inr ⟨rfl, shape⟩

/-- To record a definition never fails. A node without the name of a procedure is none. -/
theorem record_definition_cases (placement : Placement) (node : Tree) (progress : Progress) :
    node.children.head?.bind Tree.procedureName? = none ∧
        optimizer.recordDefinition placement node progress = .ok node progress ∨
    ∃ nameNode name parts parts' definition, node.children = nameNode :: parts ∧
      nameNode.procedureName? = some name ∧
      optimizer.recordDefinition placement node progress =
        .ok { node with children := nameNode :: parts' }
          { progress with scopes := progress.scopes.define name definition placement } ∧
      (parts = [] ∧ parts' = [] ∧ definition = .hidden ∨
        ∃ params body, parts = params ++ [body] ∧
          definition = (Definition.analyze optimizer.registry name params body).1 ∧
          parts' = params ++ [(Definition.analyze optimizer.registry name params body).2]) := by
  rcases node with ⟨payload, position, optimized, facts, children⟩
  cases children with
  | nil => exact Or.inl ⟨rfl, rfl⟩
  | cons nameNode parts =>
      cases named : nameNode.procedureName? with
      | none =>
          refine Or.inl ⟨named, ?_⟩
          simp only [Optimizer.recordDefinition, named]
          rfl
      | some name =>
          obtain rfl | ⟨params, body, rfl⟩ := parts.eq_nil_or_concat
          · refine Or.inr ⟨nameNode, name, [], [], .hidden, rfl, named, ?_,
              Or.inl ⟨rfl, rfl, rfl⟩⟩
            simp only [Optimizer.recordDefinition, named, List.getLast?_nil]
            rfl
          · rw [List.concat_eq_append]
            refine Or.inr ⟨nameNode, name, params ++ [body], _, _, rfl, named, ?_,
              Or.inr ⟨params, body, rfl, rfl, rfl⟩⟩
            simp only [Optimizer.recordDefinition, named, List.getLast?_concat,
              List.dropLast_concat]
            rfl

theorem record_definition_ok {payload : Payload} {optimized : Bool} {nameNode : Tree}
    {parts : List Tree} {placement : Placement} (named : nameNode.procedureName? = some name)
    (done : optimizer.recordDefinition placement
      ⟨payload, position, optimized, facts, nameNode :: parts⟩ progress = .ok node' after) :
    ∃ definition parts', node' = ⟨payload, position, optimized, facts, nameNode :: parts'⟩ ∧
      after = { progress with scopes := progress.scopes.define name definition placement } ∧
      (parts = [] ∧ parts' = [] ∧ definition = .hidden ∨
        ∃ params body, parts = params ++ [body] ∧
          definition = (Definition.analyze optimizer.registry name params body).1 ∧
          parts' = params ++ [(Definition.analyze optimizer.registry name params body).2]) := by
  obtain ⟨unnamed, -⟩ | ⟨nameNode', name', parts', analyzed, definition, same, named', recorded,
    analysis⟩ := record_definition_cases optimizer placement
      ⟨payload, position, optimized, facts, nameNode :: parts⟩ progress
  · rw [List.head?_cons, Option.bind_some, named] at unnamed
    cases unnamed
  · cases same
    rw [named] at named'
    cases named'
    rw [recorded] at done
    cases done
    exact ⟨definition, analyzed, rfl, rfl, analysis⟩

/-- The name of a definition is kept, and it is one that a definition can have when it runs. -/
theorem normalize_name_ok {node : Tree} (done : normalizeName node progress = .ok node' after) :
    ∃ name, node.procedureName? = some name ∧ Tree.isProcedureName name = true ∧
      node' = (Tree.literal (.string name) node.position).settle true ∧ after = progress := by
  unfold normalizeName at done
  cases found : node.procedureName?.filter Tree.isProcedureName with
  | none =>
      rw [found] at done
      cases done
  | some name =>
      rw [found] at done
      cases done
      rcases Option.filter_eq_some_iff.mp found with ⟨given, valid⟩
      exact ⟨name, given, valid, rfl, rfl⟩

theorem check_parameter_ok {node : Tree} (done : checkParameter node progress = .ok () after) :
    node.parameter?.isSome = true ∧ after = progress := by
  unfold checkParameter at done
  split at done
  · rename_i written
    cases done
    exact ⟨written, rfl⟩
  · cases done

theorem check_assignment_ok {first : Tree} {rest : List Tree}
    (done : checkAssignment (first :: rest) progress = .ok () after) :
    (∃ target, first.payload = .variable target) ∧ after = progress := by
  rcases first with ⟨payload, position, optimized, facts, children⟩
  cases payload with
  | «variable» target =>
      cases done
      exact ⟨⟨target, rfl⟩, rfl⟩
  | _ => cases done

theorem visit_all_cons {node : Tree} {rest nodes' : List Tree}
    (done : optimizer.visitAll revisit (node :: rest) progress = .ok nodes' after) :
    ∃ node' between rest', optimizer.visit revisit node progress = .ok node' between ∧
      optimizer.visitAll revisit rest between = .ok rest' after ∧ nodes' = node' :: rest' := by
  rw [Optimizer.visitAll] at done
  rcases bind_eq_ok done with ⟨node', between, first, others⟩
  rcases bind_eq_ok others with ⟨rest', final, later, built⟩
  cases built
  exact ⟨node', between, rest', first, later, rfl⟩

theorem visit_parts_cons {param next : Tree} {rest parts' : List Tree}
    (done : optimizer.visitParts revisit (param :: next :: rest) progress = .ok parts' after) :
    param.parameter?.isSome = true ∧
      ∃ param' between rest', optimizer.visit revisit param progress = .ok param' between ∧
        optimizer.visitParts revisit (next :: rest) between = .ok rest' after ∧
        parts' = param' :: rest' := by
  rw [Optimizer.visitParts] at done
  rcases bind_eq_ok done with ⟨_, start, checked, continued⟩
  rcases check_parameter_ok checked with ⟨written, rfl⟩
  rcases bind_eq_ok continued with ⟨param', between, first, others⟩
  rcases bind_eq_ok others with ⟨rest', final, later, built⟩
  cases built
  exact ⟨written, param', between, rest', first, later, rfl⟩

theorem visit_definition_ok {nameNode : Tree} {rest parts' : List Tree}
    (done : optimizer.visitDefinition revisit (nameNode :: rest) progress = .ok parts' after) :
    ∃ name rest', nameNode.procedureName? = some name ∧ Tree.isProcedureName name = true ∧
      optimizer.visitParts revisit rest progress = .ok rest' after ∧
      parts' = (Tree.literal (.string name) nameNode.position).settle true :: rest' := by
  rw [Optimizer.visitDefinition] at done
  rcases bind_eq_ok done with ⟨nameNode', start, normalized, others⟩
  rcases normalize_name_ok normalized with ⟨name, given, valid, rfl, rfl⟩
  rcases bind_eq_ok others with ⟨rest', final, later, built⟩
  cases built
  exact ⟨name, rest', given, valid, later, rfl⟩

theorem visit_assignment_ok {form : SpecialForm} {target expression out : Tree}
    (assigns : form = .assignment)
    (done : visitForm optimizer revisit
      ⟨.call name, position, false, facts, [target, expression]⟩ form progress = .ok out after) :
    (∃ written, target.payload = .variable written) ∧
      ∃ target' between expression', optimizer.visit revisit target progress = .ok target' between ∧
        optimizer.visit revisit expression between = .ok expression' after ∧
        out = ⟨.call name, position, false, {}, [target', expression']⟩ := by
  subst assigns
  rcases bind_eq_ok done with ⟨_, start, checked, continued⟩
  rcases check_assignment_ok checked with ⟨written, rfl⟩
  rcases bind_eq_ok continued with ⟨children', final, visited, built⟩
  cases built
  rcases visit_all_cons _ _ visited with ⟨target', between, others, first, later, rfl⟩
  rcases visit_all_cons _ _ later with ⟨expression', last, rest, second, none, rfl⟩
  cases none
  exact ⟨written, target', between, expression', first, second, rfl⟩

theorem visit_definition_statement_eq {rest : List Tree}
    (special : SpecialForm.ofName? name = some .procedure) :
    optimizer.visitStatements revisit (⟨.call name, position, false, facts, children⟩ :: rest) =
      (checkArity SpecialForm.procedure.name SpecialForm.procedure.arity
          ⟨.call name, position, false, facts, children⟩ >>= fun _ =>
        optimizer.visitDefinition revisit children >>= fun parts =>
        optimizer.recordDefinition .direct ⟨.call name, position, true, {}, parts⟩ >>= fun node' =>
        optimizer.visitStatements revisit rest >>= fun rest' => pure (splice node' ++ rest')) := by
  have named : Tree.specialForm? ⟨.call name, position, false, facts, children⟩ =
      some .procedure := special
  simp only [Optimizer.visitStatements, named, if_true, Bool.false_eq_true, if_false]
  rfl

/-- A statement that is an open definition is recorded directly in its sequence. -/
theorem visit_definition_statement {rest nodes' : List Tree}
    (special : SpecialForm.ofName? name = some .procedure)
    (done : optimizer.visitStatements revisit
      (⟨.call name, position, false, facts, children⟩ :: rest) progress = .ok nodes' after) :
    SpecialForm.procedure.arity.accepts children.length = true ∧
      ∃ parts visited node' between rest',
        optimizer.visitDefinition revisit children progress = .ok parts visited ∧
        optimizer.recordDefinition .direct ⟨.call name, position, true, {}, parts⟩ visited =
          .ok node' between ∧
        optimizer.visitStatements revisit rest between = .ok rest' after ∧
        nodes' = splice node' ++ rest' := by
  rw [visit_definition_statement_eq _ _ special] at done
  rcases bind_eq_ok done with ⟨_, start, checked, continued⟩
  rcases check_arity_ok checked with ⟨accepted, rfl⟩
  rcases bind_eq_ok continued with ⟨parts, visited, first, recording⟩
  rcases bind_eq_ok recording with ⟨node', between, recorded, others⟩
  rcases bind_eq_ok others with ⟨rest', final, later, built⟩
  cases built
  exact ⟨accepted, parts, visited, node', between, rest', first, recorded, later, rfl⟩

theorem visit_statement_eq {node : Tree} {rest : List Tree}
    (other : node.specialForm? ≠ some .procedure) :
    optimizer.visitStatements revisit (node :: rest) =
      (optimizer.visit revisit node >>= fun node' =>
        optimizer.visitStatements revisit rest >>= fun rest' => pure (splice node' ++ rest')) := by
  rcases node with ⟨payload, position, optimized, facts, children⟩
  simp only [Optimizer.visitStatements, if_neg other]

theorem visit_statement {node : Tree} {rest nodes' : List Tree}
    (other : node.specialForm? ≠ some .procedure)
    (done : optimizer.visitStatements revisit (node :: rest) progress = .ok nodes' after) :
    ∃ node' between rest', optimizer.visit revisit node progress = .ok node' between ∧
      optimizer.visitStatements revisit rest between = .ok rest' after ∧
      nodes' = splice node' ++ rest' := by
  rw [visit_statement_eq _ _ other] at done
  rcases bind_eq_ok done with ⟨node', between, first, others⟩
  rcases bind_eq_ok others with ⟨rest', final, later, built⟩
  cases built
  exact ⟨node', between, rest', first, later, rfl⟩

theorem visit_branches_single {node : Tree} {nodes' : List Tree}
    (done : optimizer.visitBranches revisit [node] progress = .ok nodes' after) :
    ∃ node', optimizer.visit revisit node progress = .ok node' after ∧ nodes' = [node'] := by
  rw [Optimizer.visitBranches] at done
  rcases bind_eq_ok done with ⟨node', final, first, built⟩
  cases built
  exact ⟨node', first, rfl⟩

theorem decide_eq_some {condition : Tree} {truth : Bool}
    (decided : optimizer.decide? condition = some truth) :
    ∃ value, condition.payload = .literal value ∧ value.isTruthy = truth := by
  unfold Optimizer.decide? at decided
  split at decided
  · rcases Option.map_eq_some_iff.mp decided with ⟨value, shown, same⟩
    exact ⟨value, Tree.payload_of_value shown, same⟩
  · cases decided

theorem visit_branches_cons {condition branch : Tree} {rest nodes' : List Tree}
    (done : optimizer.visitBranches revisit (condition :: branch :: rest) progress =
      .ok nodes' after) :
    ∃ condition' decided, optimizer.visit revisit condition progress = .ok condition' decided ∧
      ((∃ value branch', condition'.payload = .literal value ∧ value.isTruthy = true ∧
          optimizer.visit revisit branch decided = .ok branch' after ∧ nodes' = [branch']) ∨
        (∃ value, condition'.payload = .literal value ∧ value.isTruthy = false ∧
          optimizer.visitBranches revisit rest decided = .ok nodes' after) ∨
        ∃ branch' between rest', optimizer.visit revisit branch decided = .ok branch' between ∧
          optimizer.visitBranches revisit rest between = .ok rest' after ∧
          nodes' = condition' :: branch' :: rest') := by
  rw [Optimizer.visitBranches] at done
  rcases bind_eq_ok done with ⟨condition', decided, first, others⟩
  refine ⟨condition', decided, first, ?_⟩
  generalize decision : optimizer.decide? condition' = truth at others
  match truth with
  | some true =>
      rcases decide_eq_some _ decision with ⟨value, shown, truthy⟩
      rcases bind_eq_ok others with ⟨branch', final, second, built⟩
      cases built
      exact Or.inl ⟨value, branch', shown, truthy, second, rfl⟩
  | some false =>
      rcases decide_eq_some _ decision with ⟨value, shown, falsy⟩
      exact Or.inr (Or.inl ⟨value, shown, falsy, others⟩)
  | none =>
      rcases bind_eq_ok others with ⟨branch', between, second, continued⟩
      rcases bind_eq_ok continued with ⟨rest', final, later, built⟩
      cases built
      exact Or.inr (Or.inr ⟨branch', between, rest', second, later, rfl⟩)

end Steps

end TreeScript
