import TreeScript.Proofs.Passes
import TreeScript.Proofs.Scoping
/-!
# Contracts of a visit

Much of what can be said of optimized trees has the same form: a visit that starts from trees of
one kind, with templates of one kind in the frames, ends with trees of another kind, and records no
other templates. What has to be shown for it is different for each kind of tree, but where it has
to be shown is always the same: at every node that a visit leaves.

A contract lists those places. Main statement: whoever fulfils a contract there fulfils it for
every run of the optimizer.
-/

namespace TreeScript

set_option autoImplicit false

/-- An assignment starts with a variable, and a definition with the name of a procedure. -/
def SpecialForm.Fits : SpecialForm → List Tree → Prop
  | .assignment, children => ∃ target name rest,
      children = target :: rest ∧ target.payload = .variable name
  | .procedure, children => ∃ nameNode name rest,
      children = nameNode :: rest ∧ nameNode.procedureName?.filter Tree.isProcedureName = some name
  | _, _ => True

def SpecialForm.keepsArguments : SpecialForm → Bool
  | .assignment | .closure | .returning | .execution => true
  | _ => false

/-- What a parameter says to a closure: its name, and whether it has a default. -/
def Tree.parameterShape? (tree : Tree) : Option (String × Bool) :=
  tree.parameter?.map fun (name, default) => (name, default.isSome)

namespace Optimizer

variable (optimizer : Optimizer)

def LeavesOpen : List Tree → Prop
  | condition :: _ :: rest => optimizer.decide? condition = none ∧ LeavesOpen rest
  | _ => True

/-- A call of a builtin function that passes all checks and is not folded. -/
structure KeepsCall (builtin : Builtin) (arguments : List Tree) : Prop where
  accepted : builtin.arity.accepts arguments.length = true
  checked : ∀ check, builtin.staticCheck = some check →
    check arguments optimizer.registry.catalogue = .ok ()
  unfolded : (optimizer.options.foldConstants && arguments.all Tree.isConstant &&
    builtin.isFoldable arguments) = false

end Optimizer

/-- The trees that may be visited, the trees that a visit may leave, and the templates that calls
may be replaced by. Every way in which a visit leaves a node fulfils it. -/
structure Contract (optimizer : Optimizer) where
  admits : Tree → Prop
  yields : Tree → Prop
  trusts : Template → Prop
  inside : ∀ {name position facts children},
    admits ⟨.call name, position, false, facts, children⟩ → ∀ child ∈ children, admits child
  settled : ∀ {node}, node.optimized = true → admits node → yields node
  leaf : ∀ {node}, node.optimized = false → node.functionName? = none → admits node →
    yields (node.settle true)
  settle : ∀ {node}, yields node → yields (node.settle true)
  remember : ∀ {node} kind, yields node → yields (node.remember kind)
  sequence : ∀ {statements : List Tree} position, (∀ statement ∈ statements, yields statement) →
    yields ((collapse position (dropVoids (statements.flatMap splice))).settle true)
  branching : ∀ {name form branches children} position facts,
    SpecialForm.ofName? name = some form → form = .conditional ∨ form = .choice →
    form.arity.accepts children.length = true → branches.length ≤ children.length →
    optimizer.LeavesOpen branches → (∀ branch ∈ branches, yields branch) →
    yields ((resolve ⟨.call name, position, false, facts, children⟩ branches).settle true)
  keeping : ∀ {name form children} position, SpecialForm.ofName? name = some form →
    form.keepsArguments = true → form.arity.accepts children.length = true →
    form.Fits children → (∀ child ∈ children, yields child) →
    yields ⟨.call name, position, true, {}, children⟩
  definition : ∀ {name defined position facts children parts} place,
    admits ⟨.call name, position, false, facts, children⟩ →
    SpecialForm.ofName? name = some .procedure → Tree.isProcedureName defined = true →
    (∀ part ∈ parts, yields part) → (∀ param ∈ parts.dropLast, param.parameter?.isSome = true) →
    yields ⟨.call name, position, true, {},
      (Tree.literal (.string defined) place).settle true :: parts⟩
  recorded : ∀ {name defined position facts nameNode params body},
    yields ⟨.call name, position, true, facts, nameNode :: (params ++ [body])⟩ →
    SpecialForm.ofName? name = some .procedure → nameNode.procedureName? = some defined →
    yields ⟨.call name, position, true, facts,
      nameNode :: (params ++ [(Definition.analyze optimizer.registry defined params body).2])⟩ ∧
    ∀ template,
      (Definition.analyze optimizer.registry defined params body).1 = .inlinable template →
        trusts template
  replaced : ∀ {template arguments position replacement}, trusts template →
    (∀ argument ∈ arguments, yields argument) →
    template.instantiate? optimizer.registry arguments position = some replacement →
    admits replacement
  procedureCall : ∀ {name children} position, SpecialForm.ofName? name = none →
    Tree.isProcedureName name = true → (∀ child ∈ children, yields child) →
    yields ⟨.call name, position, true, {}, children⟩
  functionCall : ∀ {name builtin children} position, SpecialForm.ofName? name = none →
    Tree.isProcedureName name = false → optimizer.registry.find? name = some builtin →
    optimizer.KeepsCall builtin children → (∀ child ∈ children, yields child) →
    yields ⟨.call name, position, true, {}, children⟩
  folded : ∀ {name builtin value position store store'} {children : List Tree},
    optimizer.registry.find? name = some builtin → (∀ child ∈ children, yields child) →
    builtin.run ⟨position, none, optimizer.registry.catalogue⟩ (children.filterMap Tree.value?)
      store = .ok value store' →
    yields ((Tree.literal value position).settle true)

/-- An action that succeeds has a good result, and records no templates but trusted ones. -/
def Pass.Ensures {Result : Type} (trusts : Template → Prop) (good : Result → Prop)
    (action : Pass Result) : Prop :=
  ∀ progress result after, progress.scopes.Holds trusts → action progress = .ok result after →
    good result ∧ after.scopes.Holds trusts

namespace Pass.Ensures

variable {Item Result : Type} {trusts : Template → Prop} {good : Item → Prop}
  {good' : Result → Prop}

theorem pure {item : Item} (holds : good item) :
    Pass.Ensures trusts good (Pure.pure item) := by
  intro progress result after all done
  cases done
  exact ⟨holds, all⟩

theorem throw (error : CompileError) : Pass.Ensures trusts good (MonadExcept.throw error) := by
  intro progress result after all done
  cases done

theorem still {action : Pass Item}
    (keeps : ∀ progress item after, action progress = .ok item after →
      good item ∧ after = progress) : Pass.Ensures trusts good action := by
  intro progress item after all done
  obtain ⟨holds, rfl⟩ := keeps progress item after done
  exact ⟨holds, all⟩

theorem bind {action : Pass Item} {next : Item → Pass Result}
    (first : Pass.Ensures trusts good action)
    (others : ∀ item, good item → Pass.Ensures trusts good' (next item)) :
    Pass.Ensures trusts good' (action >>= next) := by
  intro progress result after all done
  obtain ⟨item, between, started, continued⟩ := bind_eq_ok done
  obtain ⟨holds, kept⟩ := first progress item between all started
  exact others item holds between result after kept continued

theorem imp {action : Pass Item} {better : Item → Prop}
    (ensures : Pass.Ensures trusts better action) (weaker : ∀ item, better item → good item) :
    Pass.Ensures trusts good action := by
  intro progress item after all done
  obtain ⟨holds, kept⟩ := ensures progress item after all done
  exact ⟨weaker item holds, kept⟩

theorem with_frame {action : Pass Item} (ensures : Pass.Ensures trusts good action)
    (kind : FrameKind) : Pass.Ensures trusts good (Pass.withFrame kind action) := by
  intro progress item after all done
  obtain ⟨inner, ran, rfl⟩ := with_frame_ok done
  obtain ⟨holds, kept⟩ := ensures _ item inner (all.push kind) ran
  exact ⟨holds, kept.pop⟩

end Pass.Ensures

section Shapes

variable {optimizer : Optimizer} {revisit : Option (Tree → Pass Tree)} {node node' : Tree}
  {progress after : Progress}

theorem visit_leaf_payload (leaf : node.functionName? = none)
    (done : optimizer.visit revisit node progress = .ok node' after) :
    node'.payload = node.payload := by
  cases settled : node.optimized with
  | true =>
      rw [visit_settled _ _ settled] at done
      cases done
      rfl
  | false =>
      rw [visit_leaf _ _ settled leaf] at done
      cases done
      rfl

/-- A well-formed parameter keeps its name and its default, if it has one. -/
theorem visit_keeps_shape {shape : String × Bool} (written : node.parameterShape? = some shape)
    (done : optimizer.visit revisit node progress = .ok node' after) :
    node'.parameterShape? = some shape := by
  obtain ⟨⟨name, default⟩, parameter, rfl⟩ := Option.map_eq_some_iff.mp written
  obtain ⟨position, optimized, facts, children, rfl, rfl⟩ |
    ⟨position, optimized, facts, target, expression, rest, rfl, named, rfl⟩ :=
    Tree.parameter_eq_some parameter
  · have same := visit_leaf_payload rfl done
    rw [Tree.parameterShape?, Tree.parameter?, same]
    rfl
  · cases optimized with
    | true =>
        rw [visit_settled _ _ rfl] at done
        cases done
        exact written
    | false =>
        have special := SpecialForm.ofName?_name .assignment
        obtain ⟨accepted, out, formed, rfl⟩ := visit_form_ok _ _ special done
        have only : rest = [] := by simpa [SpecialForm.arity] using accepted
        subst only
        obtain ⟨-, target', between, expression', first, -, rfl⟩ :=
          visit_assignment_ok _ _ rfl formed
        have leaf : target.functionName? = none := by
          rw [Tree.functionName?, named]
          rfl
        have same := (visit_leaf_payload leaf first).trans named
        rw [Tree.parameterShape?, Tree.settle, Tree.parameter_assigned _ _ _ _ _ same]
        rfl

theorem visit_parameter (written : node.parameter?.isSome = true)
    (done : optimizer.visit revisit node progress = .ok node' after) :
    node'.parameter?.isSome = true := by
  obtain ⟨shape, same⟩ := Option.isSome_iff_exists.mp written
  have kept := visit_keeps_shape (Option.map_eq_some_iff.mpr ⟨shape, same, rfl⟩) done
  obtain ⟨shape', same', -⟩ := Option.map_eq_some_iff.mp kept
  rw [same']
  rfl

end Shapes

namespace Contract

variable {optimizer : Optimizer} (contract : Contract optimizer)

abbrev Keeps {Result : Type} (good : Result → Prop) (action : Pass Result) : Prop :=
  Pass.Ensures contract.trusts good action

def Upholds (visitor : Tree → Pass Tree) (tree : Tree) : Prop :=
  contract.admits tree → contract.Keeps contract.yields (visitor tree)

section Lists

variable {contract} {revisit : Option (Tree → Pass Tree)} {nodes : List Tree}

theorem visit_all_keeps
    (keeps : ∀ node ∈ nodes, contract.Keeps contract.yields (optimizer.visit revisit node)) :
    contract.Keeps (fun nodes' => nodes'.length = nodes.length ∧
        ∀ node ∈ nodes', contract.yields node) (optimizer.visitAll revisit nodes) := by
  induction nodes with
  | nil => exact .pure ⟨rfl, List.forall_mem_nil _⟩
  | cons node rest induction =>
      rw [List.forall_mem_cons] at keeps
      rw [Optimizer.visitAll]
      refine keeps.1.bind fun node' yielded => ?_
      refine (induction keeps.2).bind fun rest' others => .pure ⟨?_, ?_⟩
      · exact congrArg Nat.succ others.1
      · exact List.forall_mem_cons.mpr ⟨yielded, others.2⟩

theorem visit_branches_keeps : (nodes : List Tree) →
    (∀ node ∈ nodes, contract.Keeps contract.yields (optimizer.visit revisit node)) →
    contract.Keeps (fun branches => branches.length ≤ nodes.length ∧
        optimizer.LeavesOpen branches ∧ ∀ branch ∈ branches, contract.yields branch)
      (optimizer.visitBranches revisit nodes)
  | [], _ => .pure ⟨Nat.le_refl 0, trivial, List.forall_mem_nil _⟩
  | [otherwise], keeps => by
      rw [Optimizer.visitBranches]
      refine (keeps otherwise (by simp)).bind fun branch yielded => .pure ?_
      exact ⟨Nat.le_refl 1, trivial, by simpa using yielded⟩
  | condition :: branch :: rest, keeps => by
      rw [List.forall_mem_cons, List.forall_mem_cons] at keeps
      obtain ⟨first, second, others⟩ := keeps
      have later := visit_branches_keeps rest others
      rw [Optimizer.visitBranches]
      refine first.bind fun condition' yielded => ?_
      cases decision : optimizer.decide? condition' with
      | none =>
          refine second.bind fun branch' taken => later.bind fun rest' kept => .pure ?_
          obtain ⟨shorter, isOpen, below⟩ := kept
          refine ⟨by simpa using shorter, ⟨decision, isOpen⟩, ?_⟩
          simp only [List.forall_mem_cons]
          exact ⟨yielded, taken, below⟩
      | some truth =>
          cases truth with
          | true =>
              refine second.bind fun branch' taken => .pure ⟨?_, trivial, by simpa using taken⟩
              simp
          | false =>
              refine later.imp fun branches kept => ⟨?_, kept.2⟩
              simp only [List.length_cons]
              exact Nat.le_add_right_of_le (Nat.le_add_right_of_le kept.1)

theorem visit_parts_keeps : (nodes : List Tree) →
    (∀ node ∈ nodes, contract.Keeps contract.yields (optimizer.visit revisit node)) →
    contract.Keeps (fun parts => parts.length = nodes.length ∧
        (∀ part ∈ parts, contract.yields part) ∧
        ∀ param ∈ parts.dropLast, param.parameter?.isSome = true)
      (optimizer.visitParts revisit nodes)
  | [], _ => .pure ⟨rfl, List.forall_mem_nil _, List.forall_mem_nil _⟩
  | [body], keeps => by
      rw [Optimizer.visitParts]
      refine ((keeps body (by simp)).with_frame .procedure).bind fun body' yielded => .pure ?_
      exact ⟨rfl, by simpa using yielded, List.forall_mem_nil _⟩
  | param :: next :: rest, keeps => by
      rw [List.forall_mem_cons] at keeps
      have checked : contract.Keeps (fun _ => param.parameter?.isSome = true)
          (checkParameter param) := .still fun _ _ _ done => check_parameter_ok done
      rw [Optimizer.visitParts]
      refine checked.bind fun _ written => ?_
      have visited : contract.Keeps (fun param' => contract.yields param' ∧
          param'.parameter?.isSome = true) (optimizer.visit revisit param) := by
        intro progress param' after all done
        obtain ⟨yielded, kept⟩ := keeps.1 progress param' after all done
        exact ⟨⟨yielded, visit_parameter written done⟩, kept⟩
      refine visited.bind fun param' shape => ?_
      refine (visit_parts_keeps (next :: rest) keeps.2).bind fun parts kept => .pure ?_
      obtain ⟨length, below, params⟩ := kept
      obtain ⟨second, others, rfl⟩ := List.exists_cons_of_length_eq_add_one length
      refine ⟨congrArg Nat.succ length, List.forall_mem_cons.mpr ⟨shape.1, below⟩, ?_⟩
      rw [List.dropLast_cons_cons, List.forall_mem_cons]
      exact ⟨shape.2, params⟩

theorem record_keeps {name : String} {position : Position} {facts : Facts} {children : List Tree}
    (placement : Placement) (special : SpecialForm.ofName? name = some .procedure)
    (yielded : contract.yields ⟨.call name, position, true, facts, children⟩) :
    contract.Keeps contract.yields
      (optimizer.recordDefinition placement ⟨.call name, position, true, facts, children⟩) := by
  intro progress node' after all done
  obtain ⟨-, same⟩ | ⟨nameNode, defined, parts, parts', definition, shape, named, same, analysis⟩ :=
    record_definition_cases optimizer placement
      ⟨.call name, position, true, facts, children⟩ progress
  · rw [same] at done
    cases done
    exact ⟨yielded, all⟩
  · rw [same] at done
    cases done
    obtain rfl : children = nameNode :: parts := shape
    obtain ⟨rfl, rfl, rfl⟩ | ⟨params, body, rfl, rfl, rfl⟩ := analysis
    · exact ⟨yielded, all.define defined (fun _ none => by cases none) placement⟩
    · obtain ⟨noted, trusted⟩ := contract.recorded yielded special named
      exact ⟨noted, all.define defined trusted placement⟩

theorem definition_keeps {name : String} {position : Position} {facts : Facts}
    {children : List Tree} (placement : Placement)
    (admitted : contract.admits ⟨.call name, position, false, facts, children⟩)
    (special : SpecialForm.ofName? name = some .procedure)
    (accepted : SpecialForm.procedure.arity.accepts children.length = true)
    (keeps : ∀ child ∈ children,
      contract.Keeps contract.yields (optimizer.visit revisit child)) :
    contract.Keeps contract.yields (optimizer.visitDefinition revisit children >>= fun parts =>
      optimizer.recordDefinition placement ⟨.call name, position, true, {}, parts⟩) := by
  cases children with
  | nil => simp [SpecialForm.arity] at accepted
  | cons nameNode rest =>
      rw [List.forall_mem_cons] at keeps
      have normalized : contract.Keeps (fun node => ∃ defined,
          Tree.isProcedureName defined = true ∧
          node = (Tree.literal (.string defined) nameNode.position).settle true)
          (normalizeName nameNode) := by
        refine .still fun progress node after done => ?_
        obtain ⟨defined, -, valid, same, kept⟩ := normalize_name_ok done
        exact ⟨⟨defined, valid, same⟩, kept⟩
      rw [Optimizer.visitDefinition, bind_assoc]
      refine normalized.bind fun node named => ?_
      obtain ⟨defined, valid, rfl⟩ := named
      rw [bind_assoc]
      refine (visit_parts_keeps rest keeps.2).bind fun parts kept => ?_
      rw [pure_bind]
      exact record_keeps placement special
        (contract.definition nameNode.position admitted special valid kept.2.1 kept.2.2)

/-- Statements are visited one by one, and sequences among what they come to are flattened. -/
theorem visit_statements_keeps
    (upholds : ∀ node ∈ nodes,
      node.Everywhere (contract.Upholds (optimizer.visit revisit)))
    (admitted : ∀ node ∈ nodes, contract.admits node) :
    contract.Keeps (fun statements => ∃ visited : List Tree, statements = visited.flatMap splice ∧
        ∀ statement ∈ visited, contract.yields statement)
      (optimizer.visitStatements revisit nodes) := by
  induction nodes with
  | nil => exact .pure ⟨[], rfl, List.forall_mem_nil _⟩
  | cons node rest induction =>
      rw [List.forall_mem_cons] at upholds admitted
      have others := induction upholds.2 admitted.2
      have flattened : ∀ node', contract.yields node' →
          contract.Keeps (fun statements => ∃ visited : List Tree,
              statements = visited.flatMap splice ∧
                ∀ statement ∈ visited, contract.yields statement)
            (optimizer.visitStatements revisit rest >>= fun rest' =>
              pure (splice node' ++ rest')) := by
        intro node' yielded
        refine others.bind fun rest' kept => .pure ?_
        obtain ⟨visited, rfl, below⟩ := kept
        exact ⟨node' :: visited, rfl, List.forall_mem_cons.mpr ⟨yielded, below⟩⟩
      by_cases defines : node.specialForm? = some .procedure
      · rcases node with ⟨payload, position, optimized, facts, children⟩
        cases payload with
        | literal value => cases defines
        | «variable» name => cases defines
        | call name =>
            cases optimized with
            | true =>
                simp only [Optimizer.visitStatements, defines, if_true]
                exact (record_keeps .direct defines (contract.settled rfl admitted.1)).bind
                  flattened
            | false =>
                rw [visit_definition_statement_eq _ _ defines]
                refine Pass.Ensures.bind (.still fun _ _ _ done => check_arity_ok done)
                  fun _ accepted => ?_
                have recorded := definition_keeps .direct admitted.1 defines accepted
                  fun child member => (upholds.1.inside child member).here
                    (contract.inside admitted.1 child member)
                rw [← bind_assoc]
                exact recorded.bind flattened
      · rw [visit_statement_eq _ _ defines]
        exact (upholds.1.here admitted.1).bind flattened

end Lists

section Nodes

variable {contract} {revisit : Option (Tree → Pass Tree)} {name : String} {position : Position}
  {facts : Facts} {children : List Tree}

theorem inspect_yields (yielded : ∀ argument ∈ children, contract.yields argument) :
    ∀ argument ∈ Template.inspect optimizer.registry children, contract.yields argument := by
  induction children with
  | nil => exact List.forall_mem_nil _
  | cons argument rest induction =>
      rw [List.forall_mem_cons] at yielded
      rw [Template.inspect, List.forall_mem_cons]
      refine ⟨contract.remember _ yielded.1, ?_⟩
      split
      · exact induction yielded.2
      · exact yielded.2

theorem inline_call_keeps
    (again : ∀ self tree, revisit = some self → contract.Upholds self tree)
    (plain : SpecialForm.ofName? name = none) (named : Tree.isProcedureName name = true)
    (yielded : ∀ child ∈ children, contract.yields child) :
    contract.Keeps (fun out => contract.yields (out.settle true))
      (optimizer.inlineCall revisit name ⟨.call name, position, false, {}, children⟩) := by
  intro progress out after all done
  obtain ⟨template, self, replacement, -, found, rfl, instantiated, visited⟩ |
    ⟨rfl, rfl | rfl⟩ := inline_call_ok _ _ done
  · have trusted := all.of_known (Scopes.known_eq_some.mpr found)
    have admitted := contract.replaced trusted yielded instantiated
    obtain ⟨replaced, kept⟩ := again self replacement rfl admitted progress out after all visited
    exact ⟨contract.settle replaced, kept⟩
  · exact ⟨contract.procedureCall position plain named yielded, all⟩
  · exact ⟨contract.procedureCall position plain named (inspect_yields yielded), all⟩

theorem fold_call_keeps (plain : SpecialForm.ofName? name = none)
    (unnamed : Tree.isProcedureName name = false)
    (yielded : ∀ child ∈ children, contract.yields child) :
    contract.Keeps (fun out => contract.yields (out.settle true))
      (optimizer.foldCall name ⟨.call name, position, false, {}, children⟩) := by
  cases found : optimizer.registry.find? name with
  | none =>
      rw [fold_call_missing _ found]
      exact .throw _
  | some builtin =>
      rw [fold_call_eq _ found]
      refine Pass.Ensures.bind (.still fun _ _ _ done => check_arity_ok done) fun _ accepted => ?_
      refine Pass.Ensures.bind (.still fun _ _ _ done => check_statically_ok _ done)
        fun _ checked => ?_
      by_cases allowed : (optimizer.options.foldConstants && children.all Tree.isConstant &&
          builtin.isFoldable children) = true
      · intro progress out after all done
        rw [fold_checked_folds _ allowed] at done
        split at done
        · rename_i value store' ran
          cases done
          exact ⟨contract.folded found yielded ran, all⟩
        · cases done
      · rw [fold_checked_stays _ allowed]
        have kept : optimizer.KeepsCall builtin children :=
          ⟨accepted, checked, by simpa using allowed⟩
        exact .pure (contract.functionCall position plain unnamed found kept yielded)

theorem form_keeps {form : SpecialForm} (special : SpecialForm.ofName? name = some form)
    (accepted : form.arity.accepts children.length = true)
    (upholds : ∀ child ∈ children,
      child.Everywhere (contract.Upholds (optimizer.visit revisit)))
    (admitted : contract.admits ⟨.call name, position, false, facts, children⟩) :
    contract.Keeps (fun out => contract.yields (out.settle true))
      (visitForm optimizer revisit ⟨.call name, position, false, facts, children⟩ form) := by
  have admittedBelow := contract.inside admitted
  have keeps := fun child member => (upholds child member).here (admittedBelow child member)
  have keeping : ∀ {children' : List Tree}, form.keepsArguments = true → form.Fits children' →
      children'.length = children.length ∧ (∀ child ∈ children', contract.yields child) →
      contract.yields ⟨.call name, position, true, {}, children'⟩ :=
    fun keepsAll fits kept => contract.keeping position special keepsAll
      (by rw [kept.1]; exact accepted) fits kept.2
  cases form with
  | autoConcat | sequence =>
      refine ((visit_statements_keeps upholds admittedBelow).with_frame .sequence).bind
        fun statements kept => .pure ?_
      obtain ⟨visited, rfl, below⟩ := kept
      exact contract.sequence position below
  | conditional | choice =>
      refine (visit_branches_keeps children keeps).bind fun branches kept => .pure ?_
      exact contract.branching position facts special (by simp) accepted kept.1 kept.2.1 kept.2.2
  | procedure =>
      exact (definition_keeps .nested admitted special accepted keeps).imp
        fun node yielded => contract.settle yielded
  | assignment =>
      cases children with
      | nil => simp [SpecialForm.arity] at accepted
      | cons target rest =>
          refine Pass.Ensures.bind (.still fun _ _ _ done => check_assignment_ok done)
            fun _ isVariable => ?_
          obtain ⟨written, isVariable⟩ := isVariable
          have leaf : target.functionName? = none := by
            rw [Tree.functionName?, isVariable]
            rfl
          have visited : contract.Keeps (fun children' =>
              (children'.length = (target :: rest).length ∧
                ∀ child ∈ children', contract.yields child) ∧
              SpecialForm.assignment.Fits children')
              (optimizer.visitAll revisit (target :: rest)) := by
            intro progress children' after all done
            obtain ⟨kept, last⟩ := visit_all_keeps keeps progress children' after all done
            obtain ⟨target', between, rest', first, -, rfl⟩ := visit_all_cons _ _ done
            exact ⟨⟨kept, target', written, rest', rfl,
              (visit_leaf_payload leaf first).trans isVariable⟩, last⟩
          exact visited.bind fun children' kept => .pure (keeping rfl kept.2 kept.1)
  | closure =>
      exact ((visit_all_keeps keeps).with_frame .closure).bind
        fun children' kept => .pure (keeping rfl trivial kept)
  | returning | execution =>
      exact (visit_all_keeps keeps).bind fun children' kept => .pure (keeping rfl trivial kept)

end Nodes

section Visits

variable {revisit : Option (Tree → Pass Tree)}

/-- A visit fulfils a contract, by induction on the tree. -/
theorem visit_upholds
    (again : ∀ self tree, revisit = some self → contract.Upholds self tree) (tree : Tree) :
    tree.Everywhere (contract.Upholds (optimizer.visit revisit)) := by
  apply Tree.Everywhere.intro
  intro payload position optimized facts children induction admitted
  have leaf : Tree.functionName? ⟨payload, position, optimized, facts, children⟩ = none →
      optimized = false → contract.Keeps contract.yields
        (optimizer.visit revisit ⟨payload, position, optimized, facts, children⟩) := by
    intro leaf unsettled progress out after all done
    rw [visit_leaf _ _ unsettled leaf] at done
    cases done
    exact ⟨contract.leaf unsettled leaf admitted, all⟩
  cases optimized with
  | true =>
      intro progress out after all done
      rw [visit_settled _ _ rfl] at done
      cases done
      exact ⟨contract.settled rfl admitted, all.hide_all _⟩
  | false =>
      cases payload with
      | literal value => exact leaf rfl rfl
      | «variable» name => exact leaf rfl rfl
      | call name =>
          cases special : SpecialForm.ofName? name with
          | some form =>
              rw [visit_form_eq _ _ special]
              refine Pass.Ensures.bind (.still fun _ _ _ done => check_arity_ok done)
                fun _ accepted => ?_
              exact (form_keeps special accepted induction admitted).bind
                fun out yielded => .pure yielded
          | none =>
              rw [visit_call_eq _ _ special]
              have below := contract.inside admitted
              refine (visit_all_keeps fun child member =>
                (induction child member).here (below child member)).bind fun children' kept => ?_
              refine Pass.Ensures.bind ?_ fun out yielded => .pure yielded
              unfold visitCall
              split
              · rename_i named
                exact inline_call_keeps again special named kept.2
              · rename_i unnamed
                exact fold_call_keeps special (by simpa using unnamed) kept.2

theorem pass_upholds (depth : Nat) (tree : Tree) :
    contract.Upholds (optimizer.pass depth) tree := by
  induction depth generalizing tree with
  | zero => exact (contract.visit_upholds (fun _ _ none => by cases none) tree).here
  | succ depth induction =>
      refine (contract.visit_upholds (fun self other same => ?_) tree).here
      cases same
      exact induction other

theorem run_yields {depth : Nat} {tree tree' : Tree} {store store' : Store}
    (admitted : contract.admits tree)
    (done : runVisit (optimizer.pass depth) tree store = .ok tree' store') :
    contract.yields tree' := by
  rcases run_visit_ok done with ⟨after, passed, -⟩
  exact (contract.pass_upholds depth tree admitted ⟨Scopes.initial, store⟩ _ _ (.initial _)
    passed).1

end Visits

end Contract

end TreeScript
