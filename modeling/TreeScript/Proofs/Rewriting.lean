import TreeScript.Proofs.Inlining
/-!
# Rewriting

The steps that an optimizer takes, as a relation between a tree and what becomes of it. The
relation says nothing of frames or of an order of visits. It is indexed by what is known of the
names of procedures at the place of the tree, and the part of a tree that it is about tells how the
nodes in question are evaluated: alone, as arguments, as statements, as conditions and branches, or
as parameters and a body.
-/

namespace TreeScript

set_option autoImplicit false

namespace Tree

mutual

/-- The procedures that evaluating a node may define in the environment where it is evaluated.
Those in the bodies of procedures and closures are not among them. -/
def exposed : Tree → List String
  | ⟨.call name, _, _, _, children⟩ =>
      match SpecialForm.ofName? name with
      | some .procedure => (children.head?.bind procedureName?).toList ++ exposedParts children
      | some .closure => exposedParts children
      | _ => exposedAll children
  | _ => []

def exposedAll : List Tree → List String
  | [] => []
  | node :: rest => exposed node ++ exposedAll rest

def exposedParts : List Tree → List String
  | [] => []
  | [_] => []
  | node :: next :: rest => exposed node ++ exposedParts (next :: rest)

end

def isCalm (form : SpecialForm) : Bool := form.isTransparent || form = .returning

/-- A tree whose evaluation leaves the machine alone, whether it has a value or returns one. -/
abbrev Calm (registry : Registry) (tree : Tree) : Prop := tree.CallsOnly registry isCalm

theorem CallsOnly.mono {registry : Registry} {forms forms' : SpecialForm → Bool}
    (fewer : ∀ form, forms form = true → forms' form = true) {tree : Tree}
    (calls : tree.CallsOnly registry forms) : tree.CallsOnly registry forms' := by
  induction calls with
  | literal => exact .literal _ _ _ _ _
  | «variable» => exact .variable _ _ _ _ _
  | form _ _ _ special allowed below induction =>
      exact .form _ _ _ special (fewer _ allowed) induction
  | function _ _ _ plain named found isPure below induction =>
      exact .function _ _ _ plain named found isPure induction

theorem Quiet.calm {registry : Registry} {tree : Tree} (quiet : tree.Quiet registry) :
    tree.Calm registry := by
  apply CallsOnly.mono _ quiet
  intro form transparent
  simp [isCalm, transparent]

theorem mem_exposed_all {name : String} {trees : List Tree} :
    name ∈ exposedAll trees ↔ ∃ tree ∈ trees, name ∈ tree.exposed := by
  induction trees with
  | nil => simp [exposedAll]
  | cons tree rest induction => simp [exposedAll, induction]

theorem exposed_sequence {name : String} {form : SpecialForm} {position : Position}
    {optimized : Bool} {facts : Facts} {children : List Tree}
    (special : SpecialForm.ofName? name = some form) (isSeq : form.isSequence = true) :
    exposed ⟨.call name, position, optimized, facts, children⟩ = exposedAll children := by
  cases form with
  | autoConcat | sequence => simp only [exposed, special]
  | _ => cases isSeq

theorem exposed_all_append (front rest : List Tree) :
    exposedAll (front ++ rest) = exposedAll front ++ exposedAll rest := by
  induction front with
  | nil => rfl
  | cons node front induction =>
      rw [List.cons_append, exposedAll, exposedAll, induction, List.append_assoc]

theorem exposed_all_nil {nodes : List Tree} (nothing : ∀ node ∈ nodes, node.exposed = []) :
    exposedAll nodes = [] := by
  rw [List.eq_nil_iff_forall_not_mem]
  intro name member
  rcases mem_exposed_all.mp member with ⟨node, within, exposes⟩
  rw [nothing node within] at exposes
  cases exposes

theorem Calm.exposed_nil {registry : Registry} {tree : Tree} (calm : tree.Calm registry) :
    tree.exposed = [] := by
  induction calm with
  | literal => simp [exposed]
  | «variable» => simp [exposed]
  | @form name kind position optimized facts children special allowed below induction =>
      have others := exposed_all_nil induction
      cases kind with
      | procedure | assignment | closure | execution => cases allowed
      | _ => simp only [exposed, special, others]
  | @function name builtin position optimized facts children plain named found isPure below
      induction =>
      simp only [exposed, plain, exposed_all_nil induction]

theorem exposed_all_calm {registry : Registry} {nodes : List Tree}
    (calm : ∀ node ∈ nodes, node.Calm registry) : exposedAll nodes = [] :=
  exposed_all_nil fun node member => (calm node member).exposed_nil

theorem CallsOnly.call_children {registry : Registry} {forms : SpecialForm → Bool} {name : String}
    {position : Position} {optimized : Bool} {facts : Facts} {children : List Tree}
    (calls : CallsOnly registry forms ⟨.call name, position, optimized, facts, children⟩) :
    ∀ child ∈ children, child.CallsOnly registry forms := by
  cases calls with
  | form _ _ _ special allowed below => exact below
  | function _ _ _ plain named found isPure below => exact below

end Tree

/-- What is known of names: the template of the procedure in force. -/
abbrev Known := String → Option Template

namespace Known

def nothing : Known := fun _ => none

/-- What is known after names may have been defined anew. -/
def Survives (known : Known) (names : List String) (after : Known) : Prop :=
  ∀ name template, after name = some template → known name = some template ∧ name ∉ names

theorem survives_nothing (known : Known) (names : List String) : known.Survives names nothing := by
  intro name template found
  cases found

end Known

/-- Which rewritings take place: whether calls are replaced, whether the bodies of closures are
rewritten, and whether the parameters of a known procedure are known to be distinct. Under loose
rules closures may become anything that has the same parameters. -/
structure Rules where
  inlining : Bool
  closures : Bool
  distinct : Bool
  loose : Bool := false

/-- How a list of nodes is evaluated. -/
inductive Part where
  | node
  | arguments
  | statements
  | branches
  | parts
deriving DecidableEq

/-- A second tree in the place of a first that is evaluated in the same way. -/
structure Tree.Same (registry : Registry) (tree other : Tree) : Prop where
  evaluates : ∀ context run, evaluate context run tree = evaluate context run other
  exposes : ∀ name, name ∈ tree.exposed ↔ name ∈ other.exposed
  calm : other.Calm registry → tree.Calm registry

/-- A tree that is evaluated as conditions and branches are. -/
structure Tree.Chooses (registry : Registry) (tree : Tree) (branches : List Tree) : Prop where
  evaluates : ∀ context run,
    evaluate context run tree = unlessInterrupted (evaluateBranches context run branches)
  exposes : ∀ name, name ∈ Tree.exposedAll branches ↔ name ∈ tree.exposed
  calm : tree.Calm registry → ∀ branch ∈ branches, branch.Calm registry

/-- Statements that can stand in the place of one statement. -/
structure Tree.Spreads (registry : Registry) (tree : Tree) (front : List Tree) : Prop where
  evaluates : ∀ context run last,
    evaluateSequence context run last front = evaluate context run tree
  exposes : ∀ name, name ∈ tree.exposed ↔ name ∈ Tree.exposedAll front
  calm : (∀ statement ∈ front, statement.Calm registry) → tree.Calm registry

/-- What a template is trusted with: the array of all arguments hides nothing that its body reads,
and its defaults are copied as they are. -/
structure Template.Trusted (rules : Rules) (template : Template) : Prop where
  unhidden : argumentsVariable ∉ template.body.variableNames
  plain : ∀ slot ∈ template.slots, slot.HoldsNoResource
  bare : template.body.Everywhere Tree.BareLeaf
  distinct : rules.distinct = true → (template.slots.map Slot.name).Nodup

inductive Rewrites (registry : Registry) (rules : Rules) :
    Part → Known → List Tree → List Tree → Prop where
  | literal (known : Known) (value : Value) (position position' : Position)
      (optimized optimized' : Bool) (facts facts' : Facts) (children children' : List Tree) :
      Rewrites registry rules .node known
        [⟨.literal value, position, optimized, facts, children⟩]
        [⟨.literal value, position', optimized', facts', children'⟩]
  | «variable» (known : Known) (name : String) (position : Position)
      (optimized optimized' : Bool) (facts facts' : Facts) (children children' : List Tree) :
      Rewrites registry rules .node known
        [⟨.variable name, position, optimized, facts, children⟩]
        [⟨.variable name, position, optimized', facts', children'⟩]
  | stuck (known : Known) (error : EvalError) {node : Tree} : error.isOrdinary = true →
      (∀ context run, context.registry = registry →
        evaluate context run node = unlessInterrupted fun machine => .error error machine) →
      Rewrites registry rules .node known [node] [node]
  | sequence {known : Known} {name name' : String} {form form' : SpecialForm}
      (position position' : Position) (optimized optimized' : Bool) (facts facts' : Facts)
      {children children' : List Tree} :
      SpecialForm.ofName? name = some form → form.isSequence = true →
      SpecialForm.ofName? name' = some form' → form'.isSequence = true →
      Rewrites registry rules .statements known children children' →
      Rewrites registry rules .node known
        [⟨.call name, position, optimized, facts, children⟩]
        [⟨.call name', position', optimized', facts', children'⟩]
  | branching {known : Known} {name : String} {form : SpecialForm} (position : Position)
      (optimized : Bool) (facts : Facts) {children children' : List Tree} {node' : Tree} :
      SpecialForm.ofName? name = some form → form = .conditional ∨ form = .choice →
      form.arity.accepts children.length = true →
      Rewrites registry rules .branches known children children' →
      node'.Chooses registry children' →
      Rewrites registry rules .node known
        [⟨.call name, position, optimized, facts, children⟩] [node']
  | definition {known : Known} {name name' : String} (position : Position)
      (optimized optimized' : Bool) (facts facts' : Facts) {nameNode nameNode' : Tree}
      {parts parts' : List Tree} :
      SpecialForm.ofName? name = some .procedure → SpecialForm.ofName? name' = some .procedure →
      nameNode'.procedureName? = nameNode.procedureName? →
      nameNode' = nameNode ∨ (nameNode.procedureName?.filter Tree.isProcedureName).isSome = true →
      Rewrites registry rules .parts known parts parts' →
      Rewrites registry rules .node .nothing [bodyOf parts] [bodyOf parts'] →
      Rewrites registry rules .node known
        [⟨.call name, position, optimized, facts, nameNode :: parts⟩]
        [⟨.call name', position, optimized', facts', nameNode' :: parts'⟩]
  | assignment {known : Known} {name name' target : String} (position : Position)
      (optimized optimized' : Bool) (facts facts' : Facts)
      {first first' expression expression' : Tree} :
      SpecialForm.ofName? name = some .assignment →
      SpecialForm.ofName? name' = some .assignment →
      first.payload = .variable target → first'.payload = .variable target →
      Rewrites registry rules .node known [expression] [expression'] →
      Rewrites registry rules .node known
        [⟨.call name, position, optimized, facts, [first, expression]⟩]
        [⟨.call name', position, optimized', facts', [first', expression']⟩]
  | returning {known : Known} {name name' : String} (position position' : Position)
      (optimized optimized' : Bool) (facts facts' : Facts) {children children' : List Tree} :
      SpecialForm.ofName? name = some .returning → SpecialForm.ofName? name' = some .returning →
      SpecialForm.returning.arity.accepts children.length = true →
      SpecialForm.returning.arity.accepts children'.length = true →
      Rewrites registry rules .statements known children children' →
      Rewrites registry rules .node known
        [⟨.call name, position, optimized, facts, children⟩]
        [⟨.call name', position', optimized', facts', children'⟩]
  | closure {known : Known} {name name' : String} (position : Position)
      (optimized optimized' : Bool) (facts facts' : Facts) {parts parts' : List Tree} :
      SpecialForm.ofName? name = some .closure → SpecialForm.ofName? name' = some .closure →
      Rewrites registry rules .parts known parts parts' →
      bodyOf parts' = bodyOf parts ∨ rules.closures = true →
      (rules.loose = false →
        Rewrites registry rules .node .nothing [bodyOf parts] [bodyOf parts']) →
      Rewrites registry rules .node known
        [⟨.call name, position, optimized, facts, parts⟩]
        [⟨.call name', position, optimized', facts', parts'⟩]
  | execution {known : Known} {name name' : String} (position : Position)
      (optimized optimized' : Bool) (facts facts' : Facts) {children children' : List Tree} :
      SpecialForm.ofName? name = some .execution → SpecialForm.ofName? name' = some .execution →
      SpecialForm.execution.arity.accepts children.length = true →
      SpecialForm.execution.arity.accepts children'.length = true →
      Rewrites registry rules .arguments known children children' →
      Rewrites registry rules .node known
        [⟨.call name, position, optimized, facts, children⟩]
        [⟨.call name', position, optimized', facts', children'⟩]
  | procedureCall {known : Known} {name : String} (position : Position)
      (optimized optimized' : Bool) (facts facts' : Facts) {children children' : List Tree} :
      SpecialForm.ofName? name = none → Tree.isProcedureName name = true →
      Rewrites registry rules .arguments known children children' →
      Rewrites registry rules .node known
        [⟨.call name, position, optimized, facts, children⟩]
        [⟨.call name, position, optimized', facts', children'⟩]
  | builtinCall {known : Known} {name : String} {builtin : Builtin} (position : Position)
      (optimized optimized' : Bool) (facts facts' : Facts) {children children' : List Tree} :
      SpecialForm.ofName? name = none → Tree.isProcedureName name = false →
      registry.find? name = some builtin →
      Rewrites registry rules .arguments known children children' →
      Rewrites registry rules .node known
        [⟨.call name, position, optimized, facts, children⟩]
        [⟨.call name, position, optimized', facts', children'⟩]
  | fold {known : Known} {name : String} {builtin : Builtin} (position position' : Position)
      (optimized optimized' : Bool) (facts facts' : Facts) {children children' others : List Tree}
      {value : Value} {store store' : Store} :
      SpecialForm.ofName? name = none → Tree.isProcedureName name = false →
      registry.find? name = some builtin →
      builtin.arity.accepts children'.length = true →
      Rewrites registry rules .arguments known children children' →
      children'.all Tree.isConstant = true → builtin.isFoldable children' = true →
      builtin.run ⟨position, none, registry.catalogue⟩ (children'.filterMap Tree.value?) store =
        .ok value store' →
      Rewrites registry rules .node known
        [⟨.call name, position, optimized, facts, children⟩]
        [⟨.literal value, position', optimized', facts', others⟩]
  | inline {known after : Known} {name : String} {template : Template} (position : Position)
      (optimized : Bool) (facts : Facts) {children children' : List Tree}
      {replacement node' : Tree} : rules.inlining = true →
      SpecialForm.ofName? name = none → Tree.isProcedureName name = true →
      Rewrites registry rules .arguments known children children' →
      known.Survives (Tree.exposedAll children') after → after name = some template →
      template.instantiate? registry children' position = some replacement →
      replacement.exposed = [] →
      Rewrites registry rules .node after [replacement] [node'] →
      Rewrites registry rules .node known
        [⟨.call name, position, optimized, facts, children⟩] [node']
  | same {known : Known} {node node' node'' : Tree} :
      Rewrites registry rules .node known [node] [node'] → node'.Same registry node'' →
      Rewrites registry rules .node known [node] [node'']
  | noArguments (known : Known) : Rewrites registry rules .arguments known [] []
  | argument {known after : Known} {node node' : Tree} {rest rest' : List Tree} :
      Rewrites registry rules .node known [node] [node'] → known.Survives node'.exposed after →
      Rewrites registry rules .arguments after rest rest' →
      Rewrites registry rules .arguments known (node :: rest) (node' :: rest')
  | noStatements (known : Known) : Rewrites registry rules .statements known [] []
  | statement {known after : Known} {node node' : Tree} {rest front rest' : List Tree} :
      Rewrites registry rules .node known [node] [node'] → known.Survives node'.exposed after →
      node'.Spreads registry front →
      Rewrites registry rules .statements after rest rest' →
      Rewrites registry rules .statements known (node :: rest) (front ++ rest')
  | definitionStatement {known after : Known} {name name' defined : String} (position : Position)
      (optimized optimized' : Bool) (facts facts' : Facts) {nameNode nameNode' : Tree}
      {parts parts' rest rest' : List Tree} {template : Template} {body expression : Tree} :
      SpecialForm.ofName? name = some .procedure → SpecialForm.ofName? name' = some .procedure →
      nameNode.procedureName? = some defined → nameNode'.procedureName? = some defined →
      Tree.isProcedureName defined = true →
      Rewrites registry rules .parts known parts parts' →
      Rewrites registry rules .node .nothing [bodyOf parts] [body] →
      body.Same registry (bodyOf parts') →
      body.returned? = some expression →
      template.Describes registry parts'.dropLast expression → template.Trusted rules →
      (∀ other found, after other = some found → other = defined ∧ found = template ∨
        known other = some found ∧ other ≠ defined ∧ other ∉ Tree.exposedParts parts') →
      Rewrites registry rules .statements after rest rest' →
      Rewrites registry rules .statements known
        (⟨.call name, position, optimized, facts, nameNode :: parts⟩ :: rest)
        (⟨.call name', position, optimized', facts', nameNode' :: parts'⟩ :: rest')
  | noBranches (known : Known) : Rewrites registry rules .branches known [] []
  | otherwise {known : Known} {node node' : Tree} :
      Rewrites registry rules .node known [node] [node'] →
      Rewrites registry rules .branches known [node] [node']
  | taken {known after : Known} {condition condition' branch branch' : Tree} {rest : List Tree}
      {value : Value} : Rewrites registry rules .node known [condition] [condition'] →
      condition'.payload = .literal value → value.isTruthy = true →
      known.Survives [] after → Rewrites registry rules .node after [branch] [branch'] →
      Rewrites registry rules .branches known (condition :: branch :: rest) [branch']
  | dropped {known after : Known} {condition condition' branch : Tree} {rest rest' : List Tree}
      {value : Value} : Rewrites registry rules .node known [condition] [condition'] →
      condition'.payload = .literal value → value.isTruthy = false →
      known.Survives [] after → Rewrites registry rules .branches after rest rest' →
      Rewrites registry rules .branches known (condition :: branch :: rest) rest'
  | undecided {known after later : Known} {condition condition' branch branch' : Tree}
      {rest rest' : List Tree} : Rewrites registry rules .node known [condition] [condition'] →
      known.Survives condition'.exposed after →
      Rewrites registry rules .node after [branch] [branch'] → after.Survives [] later →
      Rewrites registry rules .branches later rest rest' →
      Rewrites registry rules .branches known (condition :: branch :: rest)
        (condition' :: branch' :: rest')
  | noParts (known : Known) : Rewrites registry rules .parts known [] []
  | body (known : Known) (node node' : Tree) : Rewrites registry rules .parts known [node] [node']
  | plainParameter {known : Known} {name : String} {node node' next next' : Tree}
      {rest rest' : List Tree} : node.payload = .variable name → node'.payload = .variable name →
      Rewrites registry rules .parts known (next :: rest) (next' :: rest') →
      Rewrites registry rules .parts known (node :: next :: rest) (node' :: next' :: rest')
  | defaultParameter {known after : Known} {name : String} (position position' : Position)
      (optimized optimized' : Bool) (facts facts' : Facts)
      {first first' expression expression' next next' : Tree}
      {others others' rest rest' : List Tree} :
      first.payload = .variable name → first'.payload = .variable name →
      Tree.exposedAll others' ⊆ Tree.exposedAll others →
      Rewrites registry rules .node known [expression] [expression'] →
      known.Survives expression'.exposed after →
      Rewrites registry rules .parts after (next :: rest) (next' :: rest') →
      Rewrites registry rules .parts known
        (⟨.call SpecialForm.assignment.name, position, optimized, facts,
          first :: expression :: others⟩ :: next :: rest)
        (⟨.call SpecialForm.assignment.name, position', optimized', facts',
          first' :: expression' :: others'⟩ :: next' :: rest')
  | malformedParameter (known : Known) {node node' next next' : Tree} {rest rest' : List Tree} :
      node.parameter? = none →
      node' = node ∨ rules.loose = true ∧ node'.exposed ⊆ node.exposed →
      Tree.exposedParts (next' :: rest') ⊆ Tree.exposedParts (next :: rest) →
      Rewrites registry rules .parts known (node :: next :: rest) (node' :: next' :: rest')

namespace Tree

/-- What a part of a tree exposes. The last of the parts of a definition or a closure is a body. -/
def exposedBy : Part → List Tree → List String
  | .parts, nodes => exposedParts nodes
  | _, nodes => exposedAll nodes

theorem exposed_parts_cons (node : Tree) {rest : List Tree} (more : rest ≠ []) :
    exposedParts (node :: rest) = node.exposed ++ exposedParts rest := by
  cases rest with
  | nil => exact absurd rfl more
  | cons next later => rfl

theorem exposed_parts_tail (node : Tree) (parts : List Tree) :
    exposedParts parts ⊆ exposedParts (node :: parts) := by
  by_cases none : parts = []
  · rw [none]
    exact List.Subset.refl _
  · rw [exposed_parts_cons node none]
    exact List.subset_append_right _ _

theorem exposed_parts_body (params : List Tree) (body body' : Tree) :
    exposedParts (params ++ [body]) = exposedParts (params ++ [body']) := by
  match params with
  | [] => rfl
  | [param] => rfl
  | param :: next :: rest =>
      have others := exposed_parts_body (next :: rest) body body'
      simp only [List.cons_append, exposedParts] at others ⊢
      rw [others]

theorem exposed_of_variable {node : Tree} {name : String} (target : node.payload = .variable name) :
    node.exposed = [] := by
  rcases node with ⟨payload, position, optimized, facts, children⟩
  subst target
  rfl

theorem exposed_of_procedure_name {node : Tree} {name : String}
    (named : node.procedureName? = some name) : node.exposed = [] := by
  rcases node with ⟨payload, position, optimized, facts, children⟩
  cases payload with
  | literal value => rfl
  | «variable» name => rfl
  | call called =>
      simp only [procedureName?] at named
      split at named
      · rename_i plain
        rw [Bool.and_eq_true, List.isEmpty_iff, Option.isNone_iff_eq_none] at plain
        rcases plain with ⟨none, unnamed⟩
        have special : SpecialForm.ofName? called = Option.none := unnamed
        subst none
        simp only [exposed, special, exposedAll]
      · cases named

theorem exposed_parts_named {node : Tree} {name : String}
    (named : node.procedureName? = some name) (parts : List Tree) :
    exposedParts (node :: parts) = exposedParts parts := by
  by_cases none : parts = []
  · rw [none]
    rfl
  · rw [exposed_parts_cons node none, exposed_of_procedure_name named, List.nil_append]

end Tree

theorem append_subset {front front' rest rest' : List String} (first : front' ⊆ front)
    (second : rest' ⊆ rest) : front' ++ rest' ⊆ front ++ rest :=
  List.append_subset.mpr
    ⟨List.subset_append_of_subset_left _ first, List.subset_append_of_subset_right _ second⟩

namespace Rewrites

theorem parts_nil {registry : Registry} {rules : Rules} {known : Known} {parts parts' : List Tree}
    (rewritten : Rewrites registry rules .parts known parts parts') (none : parts = []) :
    parts' = [] := by
  subst none
  cases rewritten
  rfl

theorem definition_exposes_no_more {name name' : String} {position position' : Position}
    {optimized optimized' : Bool} {facts facts' : Facts} {nameNode nameNode' : Tree}
    {parts parts' : List Tree} (special : SpecialForm.ofName? name = some .procedure)
    (special' : SpecialForm.ofName? name' = some .procedure)
    (named : nameNode'.procedureName? = nameNode.procedureName?)
    (valid : nameNode' = nameNode ∨ nameNode'.procedureName?.isSome = true)
    (empty : parts = [] → parts' = [])
    (fewer : Tree.exposedParts parts' ⊆ Tree.exposedParts parts) :
    Tree.exposed ⟨.call name', position', optimized', facts', nameNode' :: parts'⟩ ⊆
      Tree.exposed ⟨.call name, position, optimized, facts, nameNode :: parts⟩ := by
  simp only [Tree.exposed, special, special', List.head?_cons, Option.bind_some, named]
  apply List.append_subset.mpr ⟨List.subset_append_left _ _, ?_⟩
  apply List.subset_append_of_subset_right
  rcases valid with rfl | isName
  · by_cases none' : parts' = []
    · rw [none']
      exact List.nil_subset _
    · have none : parts ≠ [] := fun none => none' (empty none)
      rw [Tree.exposed_parts_cons _ none', Tree.exposed_parts_cons _ none]
      exact append_subset (List.Subset.refl _) fewer
  · rcases Option.isSome_iff_exists.mp isName with ⟨found, is⟩
    rw [Tree.exposed_parts_named is]
    exact List.Subset.trans fewer (Tree.exposed_parts_tail nameNode parts)

/-- A rewriting exposes nothing new. -/
theorem exposes_no_more {registry : Registry} {rules : Rules} {part : Part} {known : Known}
    {nodes nodes' : List Tree} (rewritten : Rewrites registry rules part known nodes nodes') :
    Tree.exposedBy part nodes' ⊆ Tree.exposedBy part nodes := by
  induction rewritten with
  | literal | «variable» | fold => simp [Tree.exposedBy, Tree.exposedAll, Tree.exposed]
  | stuck | noArguments | noStatements | noBranches | noParts | body => exact List.Subset.refl _
  | sequence _ _ _ _ _ _ special isSeq special' isSeq' statements induction =>
      simpa [Tree.exposedBy, Tree.exposedAll, Tree.exposed_sequence special isSeq,
        Tree.exposed_sequence special' isSeq'] using induction
  | branching _ _ _ special form accepted branches chooses induction =>
      intro name member
      simp only [Tree.exposedBy, Tree.exposedAll, List.append_nil] at member induction ⊢
      have below := induction ((chooses.exposes name).mpr member)
      rcases form with rfl | rfl
      all_goals simpa only [Tree.exposed, special] using below
  | definition _ _ _ _ _ special special' named valid parts body induction inductionBody =>
      simp only [Tree.exposedBy, Tree.exposedAll, List.append_nil] at induction ⊢
      apply definition_exposes_no_more special special' named _ parts.parts_nil induction
      apply valid.imp_right
      intro isName
      rw [named]
      exact Option.isSome_of_isSome_filter _ _ isName
  | assignment position optimized optimized' facts facts' special special' target target'
      expression induction =>
      have noNames := Tree.exposed_of_variable target
      have noNames' := Tree.exposed_of_variable target'
      simpa [Tree.exposedBy, Tree.exposedAll, Tree.exposed, special, special', noNames, noNames']
        using induction
  | returning _ _ _ _ _ _ special special' accepted accepted' statements induction =>
      simpa only [Tree.exposedBy, Tree.exposedAll, List.append_nil, Tree.exposed, special, special']
        using induction
  | closure _ _ _ _ _ special special' parts kept body induction inductionBody =>
      simpa only [Tree.exposedBy, Tree.exposedAll, List.append_nil, Tree.exposed, special, special']
        using induction
  | execution _ _ _ _ _ special special' accepted accepted' arguments induction =>
      simpa only [Tree.exposedBy, Tree.exposedAll, List.append_nil, Tree.exposed, special, special']
        using induction
  | procedureCall _ _ _ _ _ special named arguments induction =>
      simpa only [Tree.exposedBy, Tree.exposedAll, List.append_nil, Tree.exposed, special]
        using induction
  | builtinCall _ _ _ _ _ special named found arguments induction =>
      simpa only [Tree.exposedBy, Tree.exposedAll, List.append_nil, Tree.exposed, special]
        using induction
  | inline _ _ _ inlining special named arguments survives found instantiated nothing replaced
      induction inductionReplacement =>
      simp only [Tree.exposedBy, Tree.exposedAll, List.append_nil,
        nothing] at inductionReplacement ⊢
      exact List.Subset.trans inductionReplacement (List.nil_subset _)
  | same node other induction =>
      intro name member
      simp only [Tree.exposedBy, Tree.exposedAll, List.append_nil] at member induction ⊢
      exact induction ((other.exposes name).mpr member)
  | argument node survives rest induction inductionRest =>
      simp only [Tree.exposedBy, Tree.exposedAll, List.append_nil] at induction inductionRest ⊢
      exact append_subset induction inductionRest
  | statement node survives spreads rest induction inductionRest =>
      simp only [Tree.exposedBy, Tree.exposedAll, List.append_nil] at induction inductionRest ⊢
      rw [Tree.exposed_all_append]
      apply append_subset _ inductionRest
      exact fun name member => induction ((spreads.exposes name).mpr member)
  | definitionStatement position _ _ _ _ special special' named named' valid parts body same
      returned described trusted known rest induction inductionBody inductionRest =>
      simp only [Tree.exposedBy, Tree.exposedAll] at induction inductionRest ⊢
      apply append_subset _ inductionRest
      exact definition_exposes_no_more special special' (named'.trans named.symm)
        (Or.inr (by rw [named', Option.isSome_some])) parts.parts_nil induction
  | otherwise node induction => exact induction
  | taken condition decided truth survives branch induction inductionBranch =>
      simp only [Tree.exposedBy, Tree.exposedAll, List.append_nil] at inductionBranch ⊢
      exact List.Subset.trans inductionBranch (by simp)
  | dropped condition decided truth survives rest induction inductionRest =>
      simp only [Tree.exposedBy, Tree.exposedAll] at inductionRest ⊢
      exact List.Subset.trans inductionRest (by simp)
  | undecided condition survives branch later rest induction inductionBranch inductionRest =>
      simp only [Tree.exposedBy, Tree.exposedAll,
        List.append_nil] at induction inductionBranch inductionRest ⊢
      exact append_subset induction (append_subset inductionBranch
        inductionRest)
  | plainParameter shape shape' later induction =>
      simp only [Tree.exposedBy, Tree.exposedParts] at induction ⊢
      rw [Tree.exposed_of_variable shape, Tree.exposed_of_variable shape']
      exact induction
  | defaultParameter _ _ _ _ _ _ target target' fewer expression survives later induction
      inductionLater =>
      simp only [Tree.exposedBy, Tree.exposedAll, List.append_nil] at induction inductionLater ⊢
      rw [Tree.exposedParts, Tree.exposedParts]
      apply append_subset _ inductionLater
      simp only [Tree.exposed, SpecialForm.ofName?_name, Tree.exposedAll,
        Tree.exposed_of_variable target, Tree.exposed_of_variable target', List.nil_append]
      exact append_subset induction fewer
  | malformedParameter known shape kept fewer =>
      simp only [Tree.exposedBy]
      rw [Tree.exposedParts, Tree.exposedParts]
      apply append_subset _ fewer
      rcases kept with rfl | ⟨-, shown⟩
      · exact List.Subset.refl _
      · exact shown

theorem branches_length {registry : Registry} {rules : Rules} {part : Part} {known : Known}
    {nodes nodes' : List Tree} (rewritten : Rewrites registry rules part known nodes nodes')
    (branching : part = .branches) : nodes'.length ≤ nodes.length := by
  induction rewritten with
  | noBranches | «otherwise» | taken => simp
  | dropped condition decided truth survives rest induction inductionRest =>
      have shorter := inductionRest branching
      simp only [List.length_cons]
      omega
  | undecided condition survives branch later rest induction inductionBranch inductionRest =>
      have shorter := inductionRest branching
      simp only [List.length_cons]
      omega
  | _ => cases branching

theorem parts_cons {registry : Registry} {rules : Rules} {known : Known} {part : Tree}
    {rest parts' : List Tree}
    (rewritten : Rewrites registry rules .parts known (part :: rest) parts') :
    ∃ part' rest', parts' = part' :: rest' := by
  cases rewritten <;> exact ⟨_, _, rfl⟩

/-- The body of a definition is rewritten apart from its parameters. -/
theorem parts_body {registry : Registry} {rules : Rules} {known : Known} {params : List Tree}
    {parts : List Tree} {body : Tree}
    (rewritten : Rewrites registry rules .parts known parts (params ++ [body])) (body' : Tree) :
    Rewrites registry rules .parts known parts (params ++ [body']) := by
  induction params generalizing known parts with
  | nil =>
      cases rewritten with
      | body known node node' => exact .body known node body'
  | cons param params induction =>
      have split : ∀ last : Tree, ∃ next rest, params ++ [last] = next :: rest := by
        intro last
        cases params with
        | nil => exact ⟨last, [], rfl⟩
        | cons next rest => exact ⟨next, rest ++ [last], rfl⟩
      rcases split body with ⟨next, rest, same⟩
      rcases split body' with ⟨next', rest', same'⟩
      rw [List.cons_append, same] at rewritten
      rw [List.cons_append, same']
      cases rewritten with
      | plainParameter shape shape' later =>
          rw [← same] at later
          exact .plainParameter shape shape' (same' ▸ induction later)
      | defaultParameter _ _ _ _ _ _ target target' fewer expression survives later =>
          rw [← same] at later
          exact .defaultParameter _ _ _ _ _ _ target target' fewer expression survives
            (same' ▸ induction later)
      | malformedParameter known shape kept fewer =>
          rw [← same, Tree.exposed_parts_body params body body', same'] at fewer
          exact .malformedParameter known shape kept fewer

section Reflexivity

variable {registry : Registry} {rules : Rules} {children : List Tree}

abbrev Stays (registry : Registry) (rules : Rules) (tree : Tree) : Prop :=
  ∀ known, Rewrites registry rules .node known [tree] [tree]

theorem arguments_stay (stay : ∀ child ∈ children, Stays registry rules child) (known : Known) :
    Rewrites registry rules .arguments known children children := by
  induction children generalizing known with
  | nil => exact .noArguments known
  | cons child rest induction =>
      apply argument (stay child (by simp) known) (known.survives_nothing _)
      exact induction (fun other member => stay other (by simp [member])) _

theorem spreads_alone (registry : Registry) (tree : Tree) : tree.Spreads registry [tree] :=
  ⟨fun context run last => evaluate_sequence_single context run last tree,
    fun name => by simp [Tree.exposedAll], fun calm => calm tree (by simp)⟩

theorem statements_stay (stay : ∀ child ∈ children, Stays registry rules child) (known : Known) :
    Rewrites registry rules .statements known children children := by
  induction children generalizing known with
  | nil => exact .noStatements known
  | cons child rest induction =>
      apply statement (stay child (by simp) known) (known.survives_nothing _)
        (spreads_alone registry child)
      exact induction (fun other member => stay other (by simp [member])) _

theorem branches_stay : (children : List Tree) →
    (∀ child ∈ children, Stays registry rules child) → (known : Known) →
    Rewrites registry rules .branches known children children
  | [], _, known => .noBranches known
  | [node], stay, known => .otherwise (stay node (by simp) known)
  | condition :: branch :: rest, stay, known => by
      apply undecided (stay condition (by simp) known) (known.survives_nothing _)
        (stay branch (by simp) _) (Known.survives_nothing _ _)
      exact branches_stay rest (fun other member => stay other (by simp [member])) _

theorem parts_stay (parts : List Tree)
    (stay : ∀ node ∈ parts, ∀ child ∈ node.children, Stays registry rules child)
    (known : Known) : Rewrites registry rules .parts known parts parts := by
  match parts with
  | [] => exact .noParts known
  | [node] => exact .body known node node
  | node :: next :: rest =>
      have later : ∀ other ∈ next :: rest, ∀ child ∈ other.children,
          Stays registry rules child :=
        fun other member => stay other (List.mem_cons_of_mem _ member)
      cases shape : node.parameter? with
      | none => exact .malformedParameter known shape (Or.inl rfl) (List.Subset.refl _)
      | some parameter =>
          rcases parameter with ⟨name, default⟩
          rcases Tree.parameter_eq_some shape with ⟨position, optimized, facts, children, rfl, -⟩ |
            ⟨position, optimized, facts, target, expression, others, rfl, named, -⟩
          · exact .plainParameter rfl rfl (parts_stay (next :: rest) later known)
          · have stays : Stays registry rules expression :=
              stay _ List.mem_cons_self expression (by simp)
            apply defaultParameter _ _ _ _ _ _ named named (List.Subset.refl _) (stays known)
              (known.survives_nothing _)
            exact parts_stay (next :: rest) later _

theorem literal_stays (value : Value) (position : Position) :
    Stays registry rules (.literal value position) :=
  fun known => .literal known value _ _ _ _ _ _ _ _

theorem body_of_stays (stay : ∀ child ∈ children, Stays registry rules child) :
    Stays registry rules (bodyOf children) := by
  unfold bodyOf
  cases last : children.getLast? with
  | none => exact literal_stays .void .unknown
  | some body => exact stay body (List.mem_of_getLast? last)

theorem form_stays {name : String} {form : SpecialForm} (position : Position) (optimized : Bool)
    (facts : Facts) (special : SpecialForm.ofName? name = some form)
    (accepted : form.arity.accepts children.length = true)
    (stay : ∀ child ∈ children, Stays registry rules child)
    (deeper : ∀ child ∈ children, ∀ grandchild ∈ child.children,
      Stays registry rules grandchild) :
    Stays registry rules ⟨.call name, position, optimized, facts, children⟩ := by
  intro known
  cases form with
  | autoConcat | sequence =>
      exact .sequence _ _ _ _ _ _ special rfl special rfl (statements_stay stay known)
  | conditional | choice =>
      apply branching _ _ _ special (by simp) accepted (branches_stay children stay known)
      refine ⟨fun context run => ?_, fun name => ?_, fun calm branch member => ?_⟩
      · exact evaluate_form context run position optimized facts children special accepted
      · simp only [Tree.exposed, special]
      · cases calm with
        | form _ _ _ _ _ below => exact below branch member
        | function _ _ _ plain _ _ _ below => exact below branch member
  | procedure =>
      cases children with
      | nil => simp [SpecialForm.arity] at accepted
      | cons nameNode parts =>
          apply definition _ _ _ _ _ special special rfl (Or.inl rfl)
          · exact parts_stay parts (fun node member => deeper node (by simp [member])) known
          · exact body_of_stays (fun child member => stay child (by simp [member])) _
  | assignment =>
      simp only [SpecialForm.arity, Arity.accepts_exactly] at accepted
      rcases List.length_eq_two.mp accepted with ⟨first, expression, rfl⟩
      cases shape : first.payload with
      | «variable» target =>
          exact .assignment _ _ _ _ _ special special shape shape (stay expression (by simp) known)
      | literal _ | call _ =>
          rcases first with ⟨payload, position', optimized', facts', children'⟩
          subst shape
          apply stuck known (.typeError (.assignment _) position) rfl
          intro context run same
          rw [evaluate_form context run _ _ _ _ special (by simp [SpecialForm.arity])]
          simp only [evaluateForm, evaluateAssignment]
          rfl
  | returning =>
      exact .returning _ _ _ _ _ _ special special accepted accepted (statements_stay stay known)
  | closure =>
      exact .closure _ _ _ _ _ special special (parts_stay children deeper known) (Or.inl rfl)
        (fun _ => body_of_stays stay _)
  | execution =>
      exact .execution _ _ _ _ _ special special accepted accepted (arguments_stay stay known)

theorem call_stays (name : String) (position : Position) (optimized : Bool) (facts : Facts)
    (stay : ∀ child ∈ children, Stays registry rules child)
    (deeper : ∀ child ∈ children, ∀ grandchild ∈ child.children,
      Stays registry rules grandchild) :
    Stays registry rules ⟨.call name, position, optimized, facts, children⟩ := by
  intro known
  cases special : SpecialForm.ofName? name with
  | some form =>
      cases accepted : form.arity.accepts children.length with
      | true => exact form_stays _ _ _ special accepted stay deeper known
      | false =>
          apply stuck known (.arityMismatch name form.arity children.length position) rfl
          intro context run same
          exact evaluate_mismatch context run position optimized facts children special accepted
  | none =>
      cases named : Tree.isProcedureName name with
      | true =>
          exact .procedureCall _ _ _ _ _ special named (arguments_stay stay known)
      | false =>
          cases found : registry.find? name with
          | some builtin =>
              exact .builtinCall _ _ _ _ _ special named found (arguments_stay stay known)
          | none =>
              apply stuck known (.unknownFunction name position) rfl
              intro context run same
              exact evaluate_unknown context run position optimized facts children special named
                (same ▸ found)

theorem stays (registry : Registry) (rules : Rules) (tree : Tree) : Stays registry rules tree := by
  suffices both : Stays registry rules tree ∧ ∀ child ∈ tree.children, Stays registry rules child
    from both.1
  induction tree using Tree.induction with
  | node payload position optimized facts children induction =>
      have below := fun child member => (induction child member).1
      refine ⟨?_, below⟩
      cases payload with
      | literal value => exact fun known => .literal known value _ _ _ _ _ _ _ _
      | «variable» name => exact fun known => .variable known name _ _ _ _ _ _ _
      | call name =>
          exact call_stays name position optimized facts below
            fun child member => (induction child member).2

end Reflexivity

end Rewrites

end TreeScript
