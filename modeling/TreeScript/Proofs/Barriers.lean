import TreeScript.Proofs.GivenNames
import TreeScript.Proofs.Origins
/-!
# Barriers between definitions

A visit opens frames and closes them again, also where it fails. It writes a definition into several
frames at once, and it visits the expressions that replace calls in the middle of all that. None of
it reaches further than it may.

Main statement: a visit leaves the same frames, whether it succeeds or fails. Nothing changes around
the innermost procedure or closure, and nothing that any frame says about a name which no definition
in the visited tree gives.

The last part needs a proviso. The bodies of templates bring no definitions along, but a default is
a literal, and definitions below it come to light when the literal is visited again as a settled
part of a replacement.
-/

namespace TreeScript

set_option autoImplicit false

namespace Scopes

/-- The frames around the innermost frame of a procedure or a closure. -/
def enclosing : Scopes → Scopes
  | [] => []
  | frame :: outer => if frame.kind = .sequence then enclosing outer else outer

def entries (name : String) (scopes : Scopes) : List (Option Definition) :=
  scopes.map fun frame => frame.definitions.find? name

/-- The same frames afterwards. At most the given names have changed their meaning, and at most up
to the nearest procedure or closure. -/
structure Spares (named : String → Prop) (scopes after : Scopes) : Prop where
  kinds : after.map Frame.kind = scopes.map Frame.kind
  enclosing : after.enclosing = scopes.enclosing
  entries : ∀ name, ¬named name → after.entries name = scopes.entries name

namespace Spares

variable {named : String → Prop} {scopes between after : Scopes} {name : String}

theorem refl (scopes : Scopes) : scopes.Spares named scopes := ⟨rfl, rfl, fun _ _ => rfl⟩

theorem trans (first : scopes.Spares named between) (second : between.Spares named after) :
    scopes.Spares named after :=
  ⟨second.kinds.trans first.kinds, second.enclosing.trans first.enclosing,
    fun name apart => (second.entries name apart).trans (first.entries name apart)⟩

/-- A name is recorded in the innermost frame. What happens around that frame matters only if it is
the frame of a sequence. -/
theorem record (given : named name) (definition : Definition) {frame : Frame}
    {outer outer' : Scopes}
    (around : if frame.kind = .sequence then outer.Spares named outer' else outer' = outer) :
    Spares named (frame :: outer) (frame.record name definition :: outer') := by
  have kind : (frame.record name definition).kind = frame.kind := rfl
  have entry : ∀ other, ¬named other →
      (frame.record name definition).definitions.find? other =
        frame.definitions.find? other := by
    intro other apart
    have differs : other ≠ name := fun same => apart (same ▸ given)
    rw [find_record, if_neg differs]
  split at around
  · rename_i sequence
    refine ⟨?_, ?_, fun other apart => ?_⟩
    · rw [List.map_cons, List.map_cons, kind, around.kinds]
    · simp only [Scopes.enclosing, kind, if_pos sequence, around.enclosing]
    · have others := around.entries other apart
      simp only [Scopes.entries, List.map_cons, entry other apart] at others ⊢
      rw [others]
  · rename_i barrier
    subst around
    refine ⟨?_, ?_, fun other apart => ?_⟩
    · rw [List.map_cons, List.map_cons, kind]
    · simp only [Scopes.enclosing, kind, if_neg barrier]
    · simp only [Scopes.entries, List.map_cons, entry other apart]

theorem hide (given : named name) (scopes : Scopes) : scopes.Spares named (scopes.hide name) := by
  induction scopes with
  | nil => exact refl []
  | cons frame outer induction =>
      rw [Scopes.hide]
      apply record given
      split
      · exact induction
      · rfl

theorem hide_all {names : List String} (given : ∀ name ∈ names, named name) (scopes : Scopes) :
    scopes.Spares named (hideAll names scopes) := by
  induction names generalizing scopes with
  | nil => exact refl scopes
  | cons name names induction =>
      rw [List.forall_mem_cons] at given
      exact (hide given.1 scopes).trans (induction given.2 _)

theorem pop {kind : FrameKind} (some_frame : scopes ≠ [])
    (spares : (scopes.push kind).Spares named after) : scopes.Spares named after.pop := by
  cases after with
  | nil => cases spares.kinds
  | cons frame outer =>
      obtain ⟨same, kinds⟩ := List.cons.inj spares.kinds
      have below : outer ≠ [] := by
        rintro rfl
        exact some_frame (List.map_eq_nil_iff.mp kinds.symm)
      rw [pop_cons frame below]
      refine ⟨kinds, ?_, fun name apart => (List.cons.inj (spares.entries name apart)).2⟩
      have around := spares.enclosing
      rw [Scopes.push, Scopes.enclosing, Scopes.enclosing, same] at around
      split at around
      · exact around
      · rw [around]

/-- Names apart from the given ones are looked up as before. -/
theorem find (spares : scopes.Spares named after) (apart : ¬named name) :
    after.find? name = scopes.find? name := by
  -- A lookup goes by kinds and entries. What `enclosing` says is not inherited by inner frames.
  have kinds := spares.kinds
  have entries := spares.entries name apart
  clear spares
  induction scopes generalizing after with
  | nil => rw [List.map_eq_nil_iff.mp kinds]
  | cons frame outer induction =>
      cases after with
      | nil => cases kinds
      | cons frame' outer' =>
          obtain ⟨kind, kinds⟩ := List.cons.inj kinds
          obtain ⟨entry, entries⟩ := List.cons.inj entries
          have same : frame'.definitions.find? name = frame.definitions.find? name := entry
          rw [find?, find?, same, kind, induction kinds entries]

end Spares

end Scopes

/-- The frames in which a definition at a place is recorded: a direct one goes into the frame of a
sequence, and any other needs some frame. -/
def Placement.Fits : Placement → List FrameKind → Prop
  | .direct, kinds => kinds.head? = some .sequence
  | .nested, kinds => kinds ≠ []

theorem Placement.Fits.nested {placement : Placement} {kinds : List FrameKind}
    (fits : placement.Fits kinds) : Placement.nested.Fits kinds := by
  cases placement with
  | nested => exact fits
  | direct =>
      rintro rfl
      cases fits

theorem Scopes.Spares.define {named : String → Prop} {name : String} (given : named name)
    (definition : Definition) {placement : Placement} {scopes : Scopes}
    (fits : placement.Fits (scopes.map Frame.kind)) :
    scopes.Spares named (scopes.define name definition placement) := by
  cases placement with
  | nested => exact hide given scopes
  | direct =>
      cases scopes with
      | nil => cases fits
      | cons frame outer =>
          have sequence : frame.kind = .sequence := Option.some.inj fits
          apply record given
          rw [if_pos sequence]
          exact hide given outer

/-- An action of an optimizer whose definitions give none but known names. Whether it succeeds or
fails, it spares the frames at a place where it may run. -/
def Pass.Spares {Result : Type} (named : String → Prop) (placement : Placement)
    (good : Result → Prop) (action : Pass Result) : Prop :=
  ∀ progress, placement.Fits (progress.scopes.map Frame.kind) →
    progress.scopes.Holds (Template.GivesOnly named) →
    match action progress with
    | .ok result after => good result ∧ after.scopes.Holds (Template.GivesOnly named) ∧
        progress.scopes.Spares named after.scopes
    | .error _ after => progress.scopes.Spares named after.scopes

namespace Pass.Spares

variable {Item Result : Type} {named : String → Prop} {placement : Placement}
  {good : Item → Prop} {good' : Result → Prop}

theorem pure {item : Item} (holds : good item) :
    Pass.Spares named placement good (Pure.pure item) :=
  fun _ _ trusted => ⟨holds, trusted, .refl _⟩

theorem throw (error : CompileError) :
    Pass.Spares named placement good (MonadExcept.throw error) :=
  fun _ _ _ => .refl _

theorem bind {action : Pass Item} {next : Item → Pass Result}
    (first : Pass.Spares named placement good action)
    (others : ∀ item, good item → Pass.Spares named placement good' (next item)) :
    Pass.Spares named placement good' (action >>= next) := by
  intro progress fits trusted
  have begun := first progress fits trusted
  rw [bind_apply]
  cases outcome : action progress with
  | error error between =>
      rw [outcome] at begun
      exact begun
  | ok item between =>
      rw [outcome] at begun
      obtain ⟨holds, trusted', spared⟩ := begun
      have ended := others item holds between (spared.kinds ▸ fits) trusted'
      dsimp only
      cases outcome' : next item between with
      | error error after =>
          rw [outcome'] at ended
          exact spared.trans ended
      | ok result after =>
          rw [outcome'] at ended
          exact ⟨ended.1, ended.2.1, spared.trans ended.2.2⟩

/-- What runs anywhere runs in a sequence as well. -/
theorem anywhere {action : Pass Item} (spares : Pass.Spares named .nested good action) :
    Pass.Spares named placement good action :=
  fun progress fits => spares progress fits.nested

theorem with_frame {kind : FrameKind} {action : Pass Item}
    (spares : Pass.Spares named placement good action)
    (fits : ∀ kinds, placement.Fits (kind :: kinds)) :
    Pass.Spares named .nested good (Pass.withFrame kind action) := by
  intro progress some_kind trusted
  have some_frame : progress.scopes ≠ [] := fun none => some_kind (List.map_eq_nil_iff.mpr none)
  have ran := spares { progress with scopes := progress.scopes.push kind } (fits _)
    (trusted.push kind)
  unfold Pass.withFrame
  cases outcome : action { progress with scopes := progress.scopes.push kind } with
  | ok item after =>
      rw [outcome] at ran
      exact ⟨ran.1, ran.2.1.pop, ran.2.2.pop some_frame⟩
  | error error after =>
      rw [outcome] at ran
      exact ran.pop some_frame

theorem check_arity (name : String) (arity : Arity) (node : Tree) :
    Pass.Spares named placement (fun _ => True) (checkArity name arity node) := by
  unfold checkArity
  split
  · exact .pure trivial
  · exact .throw _

theorem check_parameter (param : Tree) :
    Pass.Spares named placement (fun _ => True) (checkParameter param) := by
  unfold checkParameter
  split
  · exact .pure trivial
  · exact .throw _

theorem check_assignment (children : List Tree) :
    Pass.Spares named placement (fun _ => True) (checkAssignment children) := by
  unfold checkAssignment
  split
  · exact .pure trivial
  · exact .throw _
  · exact .pure trivial

end Pass.Spares

section Visits

variable {optimizer : Optimizer} {revisit : Option (Tree → Pass Tree)} {named : String → Prop}
  {placement : Placement} {nodes : List Tree}

/-- An action that spares the frames and makes a tree in which none but known names are given. -/
abbrev SparesNode (named : String → Prop) (placement : Placement) (action : Pass Tree) : Prop :=
  Pass.Spares named placement (Tree.GivesOnly named) action

abbrev SparesNodes (named : String → Prop) (placement : Placement) (action : Pass (List Tree)) :
    Prop :=
  Pass.Spares named placement (fun nodes => ∀ node ∈ nodes, node.GivesOnly named) action

def Sparing (optimizer : Optimizer) (revisit : Option (Tree → Pass Tree)) (named : String → Prop)
    (node : Tree) : Prop :=
  node.GivesOnly named → SparesNode named .nested (optimizer.visit revisit node)

theorem settled_spares {action : Pass Tree} (spares : SparesNode named placement action) :
    SparesNode named placement (action >>= fun out => pure (out.settle true)) :=
  spares.bind fun _ gives => .pure (gives.notes _ _ _)

theorem spares_cons {first : Pass Tree} {others : Pass (List Tree)}
    (spares : SparesNode named placement first) (spares' : SparesNodes named placement others) :
    SparesNodes named placement
      (first >>= fun node' => others >>= fun nodes' => pure (node' :: nodes')) :=
  spares.bind fun _ gives => spares'.bind fun _ gives' =>
    .pure (List.forall_mem_cons.mpr ⟨gives, gives'⟩)

theorem spares_singleton {action : Pass Tree} (spares : SparesNode named placement action) :
    SparesNodes named placement (action >>= fun node' => pure [node']) :=
  spares.bind fun _ gives => .pure (List.forall_mem_singleton.mpr gives)

theorem visit_all_spares
    (spares : ∀ node ∈ nodes, SparesNode named .nested (optimizer.visit revisit node)) :
    SparesNodes named .nested (optimizer.visitAll revisit nodes) := by
  induction nodes with
  | nil => exact .pure (List.forall_mem_nil _)
  | cons node rest induction =>
      rw [List.forall_mem_cons] at spares
      rw [Optimizer.visitAll]
      exact spares_cons spares.1 (induction spares.2)

/-- Whichever branches a conditional is left with, no others are visited. -/
theorem visit_branches_spares : (nodes : List Tree) →
    (∀ node ∈ nodes, SparesNode named .nested (optimizer.visit revisit node)) →
    SparesNodes named .nested (optimizer.visitBranches revisit nodes)
  | [], _ => .pure (List.forall_mem_nil _)
  | [otherwise], spares => by
      rw [Optimizer.visitBranches]
      exact spares_singleton (spares otherwise (List.mem_singleton_self _))
  | condition :: branch :: rest, spares => by
      rw [List.forall_mem_cons, List.forall_mem_cons] at spares
      obtain ⟨first, second, others⟩ := spares
      have later := visit_branches_spares rest others
      rw [Optimizer.visitBranches]
      apply first.bind
      intro condition' gives
      cases optimizer.decide? condition' with
      | none =>
          apply second.bind
          intro branch' gives'
          apply later.bind
          intro rest' others'
          exact .pure (List.forall_mem_cons.mpr ⟨gives, List.forall_mem_cons.mpr ⟨gives', others'⟩⟩)
      | some truth =>
          cases truth with
          | true => exact spares_singleton second
          | false => exact later

/-- Parameters are visited in the frames of the definition, and the body in one of its own. -/
theorem visit_parts_spares : (nodes : List Tree) →
    (∀ node ∈ nodes, SparesNode named .nested (optimizer.visit revisit node)) →
    SparesNodes named .nested (optimizer.visitParts revisit nodes)
  | [], _ => .pure (List.forall_mem_nil _)
  | [body], spares => by
      have visited := spares body (List.mem_singleton_self _)
      rw [Optimizer.visitParts]
      exact spares_singleton (visited.with_frame fun kinds => List.cons_ne_nil _ kinds)
  | param :: next :: rest, spares => by
      rw [List.forall_mem_cons] at spares
      rw [Optimizer.visitParts]
      apply (Pass.Spares.check_parameter param).bind
      intro _ _
      exact spares_cons spares.1 (visit_parts_spares (next :: rest) spares.2)

/-- The name of a definition in normal form is the same name. -/
theorem normalize_name_spares (node : Tree) :
    Pass.Spares named placement
      (fun node' => node'.procedureName? = node.procedureName? ∧ node'.GivesOnly named)
      (normalizeName node) := by
  unfold normalizeName
  split
  · rename_i name valid
    have written := (Option.filter_eq_some_iff.mp valid).1
    exact .pure ⟨written.symm, (Tree.literal_gives_only _ _).notes _ _ _⟩
  · exact .throw _

section Nodes

variable {name : String} {position : Position} {facts : Facts} {children : List Tree}

/-- The parts that come of a definition give what the definition gave. -/
theorem visit_definition_spares {payload : Payload}
    (gives : Tree.GivesOnly named ⟨payload, position, false, facts, children⟩)
    (spares : ∀ child ∈ children, SparesNode named .nested (optimizer.visit revisit child)) :
    Pass.Spares named .nested
      (fun parts => Tree.GivesOnly named ⟨payload, position, true, {}, parts⟩)
      (optimizer.visitDefinition revisit children) := by
  cases children with
  | nil => exact .pure (gives.notes position true {})
  | cons nameNode rest =>
      rw [List.forall_mem_cons] at spares
      rw [Optimizer.visitDefinition]
      apply (normalize_name_spares nameNode).bind
      rintro nameNode' ⟨same, bare⟩
      apply (visit_parts_spares rest spares.2).bind
      exact fun parts given => .pure (gives.renew same bare given)

theorem record_spares (absent : optimizer.registry.find? SpecialForm.procedure.name = none)
    {node : Tree} (special : node.specialForm? = some .procedure) (gives : node.GivesOnly named) :
    SparesNode named placement (optimizer.recordDefinition placement node) := by
  intro progress fits trusted
  obtain ⟨-, same⟩ | ⟨nameNode, name, parts, parts', definition, shape, found, same, analysis⟩ :=
    record_definition_cases optimizer placement node progress
  · rw [same]
    exact ⟨gives, trusted, .refl _⟩
  · rcases node with ⟨payload, position, optimized, facts, children⟩
    obtain rfl : children = nameNode :: parts := shape
    obtain ⟨own, inside⟩ := Tree.gives_only_iff.mp gives
    have given : named name := own name ((if_pos special).trans found)
    have spared := Scopes.Spares.define given definition fits
    rw [List.forall_mem_cons] at inside
    rw [same]
    obtain ⟨rfl, rfl, rfl⟩ | ⟨params, body, rfl, rfl, rfl⟩ := analysis
    · exact ⟨gives, trusted.define name (fun _ none => by cases none) placement, spared⟩
    · rw [List.forall_mem_append, List.forall_mem_singleton] at inside
      obtain ⟨first, others, last⟩ := inside
      refine ⟨gives.renew rfl first ?_, ?_, spared⟩
      · exact List.forall_mem_append.mpr ⟨others,
          List.forall_mem_singleton.mpr (analyzed_body_gives_only last)⟩
      · exact trusted.define name (fun _ => analyzed_gives_only absent others) placement

theorem definition_spares (absent : optimizer.registry.find? SpecialForm.procedure.name = none)
    (special : SpecialForm.ofName? name = some .procedure)
    (gives : Tree.GivesOnly named ⟨.call name, position, false, facts, children⟩)
    (spares : ∀ child ∈ children, SparesNode named .nested (optimizer.visit revisit child)) :
    SparesNode named placement (optimizer.visitDefinition revisit children >>= fun parts =>
      optimizer.recordDefinition placement ⟨.call name, position, true, {}, parts⟩) := by
  apply (visit_definition_spares gives spares).anywhere.bind
  exact fun parts given => record_spares absent special given

theorem splice_gives_only {statement : Tree} (gives : statement.GivesOnly named) :
    ∀ node ∈ splice statement, node.GivesOnly named := by
  unfold splice
  split
  · exact gives.inside
  · exact List.forall_mem_singleton.mpr gives

theorem statements_cons_spares {rest : List Tree} {action : Pass Tree}
    (first : SparesNode named .direct action)
    (others : SparesNodes named .direct (optimizer.visitStatements revisit rest)) :
    SparesNodes named .direct (action >>= fun node' =>
      optimizer.visitStatements revisit rest >>= fun rest' => pure (splice node' ++ rest')) :=
  first.bind fun _ gives => others.bind fun _ gives' =>
    .pure (List.forall_mem_append.mpr ⟨splice_gives_only gives, gives'⟩)

theorem visit_statements_spares
    (absent : optimizer.registry.find? SpecialForm.procedure.name = none)
    (sparing : ∀ node ∈ nodes, node.Everywhere (Sparing optimizer revisit named))
    (gives : ∀ node ∈ nodes, node.GivesOnly named) :
    SparesNodes named .direct (optimizer.visitStatements revisit nodes) := by
  induction nodes with
  | nil => exact .pure (List.forall_mem_nil _)
  | cons node rest induction =>
      rw [List.forall_mem_cons] at sparing gives
      have others := induction sparing.2 gives.2
      by_cases special : node.specialForm? = some .procedure
      · rcases node with ⟨payload, position, optimized, facts, children⟩
        cases payload with
        | literal | «variable» => cases special
        | call name =>
            cases optimized with
            | true =>
                simp only [Optimizer.visitStatements, special, if_true]
                exact statements_cons_spares (record_spares absent special gives.1) others
            | false =>
                have inside := fun child member =>
                  (sparing.1.inside child member).here (gives.1.inside child member)
                have first : SparesNode named .direct _ :=
                  (Pass.Spares.check_arity SpecialForm.procedure.name SpecialForm.procedure.arity
                    ⟨.call name, position, false, facts, children⟩).bind
                    fun _ _ => definition_spares absent special gives.1 inside
                have step := statements_cons_spares first others
                simp only [bind_assoc] at step
                rw [visit_definition_statement_eq _ _ special]
                exact step
      · rw [visit_statement_eq _ _ special]
        exact statements_cons_spares (sparing.1.here gives.1).anywhere others

theorem collapse_gives_only {statements : List Tree}
    (gives : ∀ statement ∈ statements, statement.GivesOnly named) :
    (collapse position statements).GivesOnly named := by
  match statements with
  | [] => exact Tree.literal_gives_only _ _
  | [statement] => exact gives statement (List.mem_singleton_self _)
  | first :: second :: rest =>
      have other : SpecialForm.ofName? SpecialForm.sequence.name ≠ some .procedure := by decide
      exact Tree.gives_only_of_children other gives

theorem resolve_gives_only {node : Tree} (other : node.specialForm? ≠ some .procedure)
    {branches : List Tree} (gives : ∀ branch ∈ branches, branch.GivesOnly named) :
    (resolve node branches).GivesOnly named := by
  match branches with
  | [] => exact Tree.literal_gives_only _ _
  | [branch] => exact gives branch (List.mem_singleton_self _)
  | first :: second :: rest => exact Tree.gives_only_of_children other gives

/-- Sequences, bodies and closures get a frame of their own. Only a definition gives a name. -/
theorem form_spares (absent : optimizer.registry.find? SpecialForm.procedure.name = none)
    {form : SpecialForm} (special : SpecialForm.ofName? name = some form)
    (gives : Tree.GivesOnly named ⟨.call name, position, false, facts, children⟩)
    (sparing : ∀ child ∈ children, child.Everywhere (Sparing optimizer revisit named)) :
    SparesNode named .nested
      (visitForm optimizer revisit ⟨.call name, position, false, facts, children⟩ form) := by
  have inside := fun child member => (sparing child member).here (gives.inside child member)
  have other : form ≠ .procedure →
      Tree.specialForm? ⟨.call name, position, false, facts, children⟩ ≠ some .procedure :=
    fun differs same => differs (Option.some.inj (special.symm.trans same))
  cases form with
  | autoConcat | sequence =>
      apply ((visit_statements_spares absent sparing gives.inside).with_frame fun _ => rfl).bind
      intro statements given
      exact .pure (collapse_gives_only fun statement member =>
        given statement (mem_drop_voids member))
  | conditional | choice =>
      apply (visit_branches_spares children inside).bind
      exact fun branches given => .pure (resolve_gives_only (other nofun) given)
  | procedure => exact definition_spares absent special gives inside
  | assignment =>
      apply (Pass.Spares.check_assignment children).bind
      intro _ _
      apply (visit_all_spares inside).bind
      exact fun children' given => .pure (Tree.gives_only_of_children (other nofun) given)
  | closure =>
      apply ((visit_all_spares inside).with_frame fun kinds => List.cons_ne_nil _ kinds).bind
      exact fun children' given => .pure (Tree.gives_only_of_children (other nofun) given)
  | returning | execution =>
      apply (visit_all_spares inside).bind
      exact fun children' given => .pure (Tree.gives_only_of_children (other nofun) given)

theorem check_statically_spares (builtin : Builtin) (node : Tree) :
    Pass.Spares named placement (fun _ => True) (checkStatically optimizer name builtin node) := by
  unfold checkStatically
  split
  · exact .pure trivial
  · split
    · exact .pure trivial
    · exact .throw _

theorem fold_call_spares {node : Tree} (gives : node.GivesOnly named) :
    SparesNode named placement (optimizer.foldCall name node) := by
  cases found : optimizer.registry.find? name with
  | none =>
      rw [fold_call_missing _ found]
      exact .throw _
  | some builtin =>
      rw [fold_call_eq _ found]
      apply (Pass.Spares.check_arity _ _ _).bind
      intro _ _
      apply (check_statically_spares _ _).bind
      intro _ _
      by_cases allowed : (optimizer.options.foldConstants && node.children.all Tree.isConstant &&
          builtin.isFoldable node.children) = true
      · intro progress fits trusted
        rw [fold_checked_folds _ allowed]
        cases builtin.run ⟨node.position, none, optimizer.registry.catalogue⟩
            (node.children.filterMap Tree.value?) progress.store with
        | ok value store => exact ⟨Tree.literal_gives_only _ _, trusted, .refl _⟩
        | error fault store => exact .refl _
      · rw [fold_checked_stays _ allowed]
        exact .pure gives

theorem inline_call_spares
    (again : ∀ self tree, revisit = some self → tree.GivesOnly named →
      SparesNode named .nested (self tree))
    {node : Tree} (other : node.specialForm? ≠ some .procedure) (gives : node.GivesOnly named) :
    SparesNode named .nested (optimizer.inlineCall revisit name node) := by
  intro progress fits trusted
  obtain ⟨template, self, replacement, -, found, rfl, instantiated, same⟩ |
    ⟨node', same, shape⟩ := inline_call_cases optimizer revisit name node progress
  · have known := trusted.of_known (Scopes.known_eq_some.mpr found)
    have given := known.instantiate gives.inside instantiated
    rw [same]
    exact again self replacement rfl given progress fits trusted
  · rw [same]
    refine ⟨?_, trusted, .refl _⟩
    obtain rfl | rfl := shape
    · exact gives
    · exact Tree.gives_only_of_children other (inspect_gives_only _ gives.inside)

end Nodes

/-- A visit of any node spares the frames, by induction on the tree. -/
theorem visit_sparing (absent : optimizer.registry.find? SpecialForm.procedure.name = none)
    (again : ∀ self tree, revisit = some self → tree.GivesOnly named →
      SparesNode named .nested (self tree)) (tree : Tree) :
    tree.Everywhere (Sparing optimizer revisit named) := by
  apply Tree.Everywhere.intro
  intro payload position optimized facts children induction gives
  have leaf : Tree.functionName? ⟨payload, position, optimized, facts, children⟩ = none →
      optimized = false → SparesNode named .nested
        (optimizer.visit revisit ⟨payload, position, optimized, facts, children⟩) := by
    intro leaf unsettled progress fits trusted
    rw [visit_leaf _ _ unsettled leaf]
    exact ⟨gives.notes _ _ _, trusted, .refl _⟩
  cases optimized with
  | true =>
      intro progress fits trusted
      rw [visit_settled _ _ rfl]
      exact ⟨gives, trusted.hide_all _, .hide_all gives _⟩
  | false =>
      cases payload with
      | literal value => exact leaf rfl rfl
      | «variable» name => exact leaf rfl rfl
      | call name =>
          cases special : SpecialForm.ofName? name with
          | some form =>
              rw [visit_form_eq _ _ special]
              apply (Pass.Spares.check_arity _ _ _).bind
              exact fun _ _ => settled_spares (form_spares absent special gives induction)
          | none =>
              have other : SpecialForm.ofName? name ≠ some .procedure := by
                rw [special]
                exact (Option.some_ne_none _).symm
              rw [visit_call_eq _ _ special]
              apply (visit_all_spares fun child member =>
                (induction child member).here (gives.inside child member)).bind
              intro children' given
              have gives' : Tree.GivesOnly named ⟨.call name, position, false, {}, children'⟩ :=
                Tree.gives_only_of_children other given
              apply settled_spares
              unfold visitCall
              split
              · exact inline_call_spares again other gives'
              · exact fold_call_spares gives'

theorem pass_spares (absent : optimizer.registry.find? SpecialForm.procedure.name = none)
    (depth : Nat) {tree : Tree} (gives : tree.GivesOnly named) :
    SparesNode named .nested (optimizer.pass depth tree) := by
  induction depth generalizing tree with
  | zero => exact (visit_sparing absent (fun _ _ none => by cases none) tree).here gives
  | succ depth induction =>
      refine (visit_sparing absent (fun self other same below => ?_) tree).here gives
      cases same
      exact induction below

end Visits

def Pass.scopesAfter {Result : Type} (action : Pass Result) (progress : Progress) : Scopes :=
  match action progress with
  | .ok _ after | .error _ after => after.scopes

/-- A definition below a default of the template gives the name. -/
def Template.GivesByDefault (template : Template) (name : String) : Prop :=
  ∃ slot ∈ template.slots, ∃ default, slot.default = some default ∧ name ∈ default.definitions

/-- Visits keep the frames balanced and respect barriers. Unless a function goes by the name of the
special form, a visit that starts with templates whose bodies make no definitions, such as all that
are ever recorded, ends with frames of the same kinds, whether it succeeds or fails, and leaves
everything around the innermost procedure or closure as it is. A name that is given neither in the
tree nor below a default of a known template means in every frame what it meant, and is looked up
as before. -/
theorem visiting_respects_barriers {optimizer : Optimizer}
    (absent : optimizer.registry.find? SpecialForm.procedure.name = none) :
    (∀ name params body template,
      (Definition.analyze optimizer.registry name params body).1 = .inlinable template →
        SpecialForm.procedure.name ∉ template.body.functionNames) ∧
    ∀ depth tree progress, progress.scopes ≠ [] →
      progress.scopes.Holds
        (fun template => SpecialForm.procedure.name ∉ template.body.functionNames) →
      let after := (optimizer.pass depth tree).scopesAfter progress
      after.map Frame.kind = progress.scopes.map Frame.kind ∧
        after.enclosing = progress.scopes.enclosing ∧
        ∀ name ∉ tree.definitions,
          progress.scopes.Holds (fun template => ¬template.GivesByDefault name) →
            after.entries name = progress.scopes.entries name ∧
              after.find? name = progress.scopes.find? name := by
  refine ⟨fun name params body template => analyzed_without_form absent, ?_⟩
  intro depth tree progress some_frame bare after
  -- Templates that are recorded on the way have their defaults from the tree.
  let named name := name ∈ tree.definitions ∨
    ¬progress.scopes.Holds fun template => ¬template.GivesByDefault name
  have trusted : progress.scopes.Holds (Template.GivesOnly named) := by
    intro frame member called template found
    refine ⟨bare frame member called template found, ?_⟩
    intro slot among default given name defined
    exact Or.inr fun apart =>
      apart frame member called template found ⟨slot, among, default, given, defined⟩
  have some_kind : progress.scopes.map Frame.kind ≠ [] :=
    fun none => some_frame (List.map_eq_nil_iff.mp none)
  have spared : progress.scopes.Spares named after := by
    have visited := pass_spares absent depth (fun _ => Or.inl) progress some_kind trusted
    unfold after Pass.scopesAfter
    cases outcome : optimizer.pass depth tree progress with
    | ok out final =>
        rw [outcome] at visited
        exact visited.2.2
    | error error final =>
        rw [outcome] at visited
        exact visited
  refine ⟨spared.kinds, spared.enclosing, fun name outside apart => ?_⟩
  have unnamed : ¬named name := fun given => given.elim outside (absurd apart)
  exact ⟨spared.entries name unnamed, spared.find unnamed⟩

def ladenParameter : Tree :=
  .call SpecialForm.assignment.name
    [.node (.variable "@x") [] .unknown,
      .node (.literal (.int 5)) [numberDefinition 2] .unknown] .unknown

def ladenBody : Tree :=
  .call SpecialForm.returning.name [.node (.variable "@x") [] .unknown] .unknown

def ladenDefinition : Tree :=
  .call SpecialForm.procedure.name
    [.literal (.string "_f") .unknown, ladenParameter, ladenBody] .unknown

/-- In a closure after the definition of `_f`, a definition of `_p` is visited. The frames around
the closure stay, and the meaning of `_f` does, too. -/
theorem visiting_respects_barriers_of_closure :
    let optimizer : Optimizer := ⟨Prelude.registry, {}⟩
    ∃ template,
      (Definition.analyze optimizer.registry "_f" [ladenParameter] ladenBody).1 =
        .inlinable template ∧
      let outer := (Scopes.initial.push .sequence).define "_f" (.inlinable template) .direct
      let after := (optimizer.pass 1 (numberDefinition 1)).scopesAfter ⟨outer.push .closure, {}⟩
      after.map Frame.kind = [.closure, .sequence, .procedure] ∧ after.enclosing = outer ∧
        after.entries "_f" = [none, some (.inlinable template), some .hidden] ∧
        after.find? "_f" = some (.inlinable template) := by
  intro optimizer
  obtain ⟨template, analyzed⟩ : ∃ template,
      (Definition.analyze optimizer.registry "_f" [ladenParameter] ladenBody).1 =
        .inlinable template := ⟨_, rfl⟩
  have absent : optimizer.registry.find? SpecialForm.procedure.name = none := rfl
  obtain ⟨recorded, visited⟩ := visiting_respects_barriers absent
  have bare := recorded "_f" [ladenParameter] ladenBody template analyzed
  have apart : ¬template.GivesByDefault "_f" := by
    cases analyzed
    rintro ⟨slot, among, default, given, defined⟩
    obtain rfl := List.mem_singleton.mp among
    cases given
    exact absurd defined (by decide)
  -- What holds of the only template in the frames holds of all of them.
  have all {holds : Template → Prop} (one : holds template) :
      Scopes.Holds holds (((Scopes.initial.push .sequence).define "_f" (.inlinable template)
        .direct).push .closure) := by
    apply Scopes.Holds.push
    apply ((Scopes.Holds.initial holds).push .sequence).define
    rintro _ ⟨⟩
    exact one
  obtain ⟨kinds, enclosing, names⟩ :=
    visited 1 (numberDefinition 1) ⟨_, {}⟩ (List.cons_ne_nil _ _) (all bare)
  obtain ⟨entries, found⟩ := names "_f" (by decide) (all apart)
  exact ⟨template, analyzed, kinds, enclosing, entries, found⟩

/-- The template of `_f` is recorded with a definition of `_p` below its default. A call of `_f`
gives no name, and yet its visit hides `_p`, because the number that replaces it is settled. -/
theorem laden_default_hides :
    let optimizer : Optimizer := ⟨Prelude.registry, {}⟩
    let scopes := (optimizer.visitStatements none [numberDefinition 1, ladenDefinition]).scopesAfter
      ⟨Scopes.initial.push .sequence, {}⟩
    let after := (optimizer.pass 1 (.call "_f" [] .unknown)).scopesAfter ⟨scopes, {}⟩
    optimizer.registry.find? SpecialForm.procedure.name = none ∧
      (∃ template slot default, scopes.find? "_f" = some (.inlinable template) ∧
        slot ∈ template.slots ∧ slot.default = some default ∧
        SpecialForm.procedure.name ∈ default.functionNames) ∧
      (Tree.call "_f" [] .unknown).definitions = [] ∧
      (∃ template, scopes.find? "_p" = some (.inlinable template)) ∧
      after.find? "_p" = some .hidden := by
  refine ⟨rfl, ⟨_, _, _, rfl, List.mem_cons_self, rfl, ?_⟩, rfl, ⟨_, rfl⟩, rfl⟩
  decide

end TreeScript
