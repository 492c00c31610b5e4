import TreeScript.Proofs.Passes
import TreeScript.Proofs.Sameness
import TreeScript.Proofs.Scoping
import TreeScript.Proofs.Shapes
/-!
# Visits are rewritings

Whatever a visit makes of a tree is a rewriting of it, under what the frames know when the visit
begins. The proof follows the visit. It also keeps track of what the visit leaves in the frames: all
that happens to them is that names are hidden, those that the visited tree exposes among them.
-/

namespace TreeScript

set_option autoImplicit false

namespace Tree

theorem mem_child_definitions {name : String} {children : List Tree} :
    name ∈ childDefinitions children ↔ ∃ child ∈ children, name ∈ child.definitions := by
  induction children with
  | nil => simp [childDefinitions]
  | cons child rest induction => simp [childDefinitions, induction]

theorem mem_exposed_parts {name : String} {parts : List Tree}
    (member : name ∈ exposedParts parts) : ∃ part ∈ parts, name ∈ part.exposed := by
  induction parts with
  | nil => cases member
  | cons part rest induction =>
      cases rest with
      | nil => cases member
      | cons next later =>
          rw [exposedParts, List.mem_append] at member
          rcases member with own | others
          · exact ⟨part, by simp, own⟩
          · rcases induction others with ⟨other, within, exposes⟩
            exact ⟨other, List.mem_cons_of_mem _ within, exposes⟩

theorem exposed_definitions {tree : Tree} {name : String} (member : name ∈ tree.exposed) :
    name ∈ tree.definitions := by
  induction tree using Tree.induction with
  | node payload position optimized facts children induction =>
      have below : (∃ child ∈ children, name ∈ child.exposed) →
          name ∈ definitions ⟨payload, position, optimized, facts, children⟩ := by
        rintro ⟨child, within, exposes⟩
        rw [definitions, List.mem_append]
        exact Or.inr (mem_child_definitions.mpr ⟨child, within, induction child within exposes⟩)
      cases payload with
      | call called =>
          rw [exposed] at member
          split at member
          · rename_i special
            rcases List.mem_append.mp member with own | parts
            · have named : specialForm? ⟨.call called, position, optimized, facts, children⟩ =
                  some .procedure := special
              rw [definitions, definition?, if_pos named, List.mem_append]
              exact Or.inl own
            · exact below (mem_exposed_parts parts)
          · exact below (mem_exposed_parts member)
          · exact below (mem_exposed_all.mp member)
      | _ => cases member

end Tree

namespace Rules

/-- What the frames tell a rewriting: nothing if no call is ever replaced. -/
def known (rules : Rules) (scopes : Scopes) : Known :=
  if rules.inlining then scopes.known else .nothing

/-- Between the first frames and the second, names were hidden, the exposed ones among them. -/
def Hides (rules : Rules) (exposed : List String) (scopes after : Scopes) : Prop :=
  ∃ names, after = Scopes.hideAll names scopes ∧
    (rules.inlining = true → ∀ name ∈ exposed, name ∈ names)

variable {rules : Rules} {scopes between after : Scopes} {names names' : List String}

theorem known_off (off : rules.inlining = false) (scopes : Scopes) :
    rules.known scopes = .nothing := by
  simp [known, off]

theorem known_on (on : rules.inlining = true) (scopes : Scopes) :
    rules.known scopes = scopes.known := by
  simp [known, on]

theorem known_initial : rules.known Scopes.initial = .nothing := by
  unfold known
  split <;> rfl

theorem known_push {kind : FrameKind} (other : kind ≠ .procedure) (scopes : Scopes) :
    rules.known (scopes.push kind) = rules.known scopes := by
  unfold known
  rw [Scopes.known_push other]

theorem known_push_procedure (scopes : Scopes) :
    rules.known (scopes.push .procedure) = .nothing := by
  unfold known
  rw [Scopes.known_push_procedure]
  split <;> rfl

namespace Hides

theorem refl (scopes : Scopes) : rules.Hides [] scopes scopes :=
  ⟨[], rfl, fun _ _ member => member⟩

theorem append (first : rules.Hides names scopes between)
    (second : rules.Hides names' between after) : rules.Hides (names ++ names') scopes after := by
  rcases first with ⟨hidden, rfl, covers⟩
  rcases second with ⟨hidden', rfl, covers'⟩
  refine ⟨hidden ++ hidden', (Scopes.hide_all_append _ _ _).symm, fun on name member => ?_⟩
  exact List.mem_append.mpr ((List.mem_append.mp member).imp (covers on name) (covers' on name))

theorem mono (hides : rules.Hides names scopes after) (fewer : ∀ name ∈ names', name ∈ names) :
    rules.Hides names' scopes after := by
  rcases hides with ⟨hidden, same, covers⟩
  exact ⟨hidden, same, fun on name member => covers on name (fewer name member)⟩

/-- What is still known was known before, and does not go by an exposed name. -/
theorem survives (hides : rules.Hides names scopes after) (some_frame : scopes ≠ []) :
    (rules.known scopes).Survives names (rules.known after) := by
  rcases hides with ⟨hidden, rfl, covers⟩
  cases inlining : rules.inlining with
  | false =>
      rw [known_off inlining, known_off inlining]
      exact Known.survives_nothing _ _
  | true =>
      rw [known_on inlining, known_on inlining]
      intro name template found
      rcases Scopes.known_hide_all some_frame found with ⟨before, outside⟩
      exact ⟨before, fun member => outside (covers inlining name member)⟩

end Hides

end Rules

/-- A function that gets no resources makes none while a script is compiled. -/
def Registry.MakesNoResources (registry : Registry) : Prop :=
  ∀ name builtin position values store value store', registry.find? name = some builtin →
    (∀ value ∈ values, value.holdsResource = false) →
    builtin.run ⟨position, none, registry.catalogue⟩ values store = .ok value store' →
      value.holdsResource = false

/-- The optimizer takes only the steps that the rules allow. -/
structure Optimizer.Follows (optimizer : Optimizer) (rules : Rules) : Prop where
  apart : rules.inlining = true → optimizer.registry.KeepsNamesApart
  inlines : optimizer.options.inlineProcedures = true → rules.inlining = true
  plain : rules.inlining = true → optimizer.registry.MakesNoResources

structure Scopes.Fit (registry : Registry) (rules : Rules) (scopes : Scopes) : Prop where
  some_frame : scopes ≠ []
  holds : rules.inlining = true → scopes.Holds (Template.Sound registry rules)

namespace Scopes.Fit

variable {registry : Registry} {rules : Rules} {scopes after : Scopes} {names : List String}

theorem initial : Scopes.initial.Fit registry rules :=
  ⟨List.cons_ne_nil _ _, fun _ => .initial _⟩

theorem hides (fit : scopes.Fit registry rules) (hides : rules.Hides names scopes after) :
    after.Fit registry rules := by
  rcases hides with ⟨hidden, rfl, -⟩
  exact ⟨hide_all_ne_nil hidden fit.some_frame, fun on => (fit.holds on).hide_all hidden⟩

theorem push (fit : scopes.Fit registry rules) (kind : FrameKind) :
    (scopes.push kind).Fit registry rules :=
  ⟨List.cons_ne_nil _ _, fun on => (fit.holds on).push kind⟩

end Scopes.Fit

/-- What a visit makes of a node, and what it leaves in the frames. -/
structure Visited (registry : Registry) (rules : Rules) (scopes after : Scopes)
    (node node' : Tree) : Prop where
  rewrites : Rewrites registry rules .node (rules.known scopes) [node] [node']
  finished : node'.Everywhere (Tree.Finished rules)
  hides : rules.Hides node'.exposed scopes after

structure VisitedList (registry : Registry) (rules : Rules) (part : Part) (scopes after : Scopes)
    (nodes nodes' : List Tree) : Prop where
  rewrites : Rewrites registry rules part (rules.known scopes) nodes nodes'
  finished : ∀ node ∈ nodes', node.Everywhere (Tree.Finished rules)
  hides : rules.Hides (Tree.exposedAll nodes') scopes after

def VisitsSoundly (registry : Registry) (rules : Rules) (visit : Tree → Pass Tree) (node : Tree) :
    Prop :=
  ∀ progress node' after, progress.scopes.Fit registry rules →
    visit node progress = .ok node' after →
      Visited registry rules progress.scopes after.scopes node node'

section Visits

variable {optimizer : Optimizer} {rules : Rules} {revisit : Option (Tree → Pass Tree)}
  {progress after : Progress} {children children' : List Tree} {node node' : Tree}

theorem Visited.settle {registry : Registry} {scopes after : Scopes}
    (visited : Visited registry rules scopes after node node') (flag : Bool) :
    Visited registry rules scopes after node (node'.settle flag) := by
  have same : node'.Same registry (node'.settle flag) := Tree.Same.settle node' flag
  refine ⟨.same visited.rewrites same, Tree.finished_notes visited.finished _ _ _, ?_⟩
  apply visited.hides.mono
  rcases node' with ⟨payload, position, optimized, facts, children⟩
  intro name member
  cases payload <;> exact member

theorem settled_visited (registry : Registry) (ready : node.Ready rules)
    (settled : node.optimized = true) (scopes : Scopes) :
    Visited registry rules scopes (scopes.shadow node) node node :=
  ⟨Rewrites.stays registry rules node _, (ready.settled settled).1,
    ⟨node.definitions, rfl, fun _ _ member => Tree.exposed_definitions member⟩⟩

theorem leaf_visited (registry : Registry) (ready : node.Ready rules)
    (leaf : node.functionName? = none) (scopes : Scopes) :
    Visited registry rules scopes scopes node (node.settle true) := by
  rcases node with ⟨payload, position, optimized, facts, children⟩
  have bare : children = [] := ready.bare leaf
  subst bare
  have finished : Tree.Everywhere (Tree.Finished rules) ⟨payload, position, true, facts, []⟩ :=
    .node (Tree.Finished.leaf leaf ready.plain _ _ _) (by simp)
  cases payload with
  | literal value => exact ⟨.literal _ _ _ _ _ _ _ _ _ _, finished, .refl scopes⟩
  | «variable» name => exact ⟨.variable _ _ _ _ _ _ _ _ _, finished, .refl scopes⟩
  | call name => cases leaf

theorem visit_all_visited
    (sound : ∀ child ∈ children, VisitsSoundly optimizer.registry rules
      (optimizer.visit revisit) child)
    (fit : progress.scopes.Fit optimizer.registry rules)
    (done : optimizer.visitAll revisit children progress = .ok children' after) :
    VisitedList optimizer.registry rules .arguments progress.scopes after.scopes children
      children' := by
  induction children generalizing progress children' with
  | nil =>
      cases done
      exact ⟨.noArguments _, by simp, .refl _⟩
  | cons node rest induction =>
      rcases visit_all_cons _ _ done with ⟨node', between, rest', first, later, rfl⟩
      have visited := sound node (by simp) progress node' between fit first
      have others := induction (fun child member => sound child (by simp [member]))
        (fit.hides visited.hides) later
      refine ⟨.argument visited.rewrites (visited.hides.survives fit.some_frame) others.rewrites,
        ?_, visited.hides.append others.hides⟩
      exact List.forall_mem_cons.mpr ⟨visited.finished, others.finished⟩

theorem finished_call {name : String} {position : Position} {optimized : Bool} {facts : Facts}
    (full : (SpecialForm.ofName? name).any SpecialForm.isSequence = true → children ≠ [])
    (finished : ∀ child ∈ children, child.Everywhere (Tree.Finished rules)) :
    Tree.Everywhere (Tree.Finished rules) ⟨.call name, position, optimized, facts, children⟩ :=
  .node ⟨nofun, full, fun _ _ => nofun⟩ finished

theorem exposed_remember (kind : FactKind) (tree : Tree) :
    (tree.remember kind).exposed = tree.exposed := by
  rcases tree with ⟨payload, position, optimized, facts, children⟩
  unfold Tree.remember Tree.ask
  split
  · rfl
  · cases payload <;> simp only [Tree.exposed]

theorem finished_remember (kind : FactKind) {tree : Tree}
    (finished : tree.Everywhere (Tree.Finished rules)) :
    (tree.remember kind).Everywhere (Tree.Finished rules) := by
  unfold Tree.remember Tree.ask
  split
  · exact finished
  · exact Tree.finished_notes finished _ _ _

/-- Arguments that have been looked at define nothing else, and are finished as they were. -/
theorem inspected_arguments (registry : Registry) (arguments : List Tree)
    (finished : ∀ argument ∈ arguments, argument.Everywhere (Tree.Finished rules)) :
    Tree.exposedAll (Template.inspect registry arguments) = Tree.exposedAll arguments ∧
      ∀ argument ∈ Template.inspect registry arguments,
        argument.Everywhere (Tree.Finished rules) := by
  induction arguments with
  | nil => exact ⟨rfl, finished⟩
  | cons argument rest induction =>
      rw [List.forall_mem_cons] at finished
      rcases induction finished.2 with ⟨same, others⟩
      rw [Template.inspect, Tree.exposedAll, Tree.exposedAll, exposed_remember,
        List.forall_mem_cons]
      split
      · exact ⟨by rw [same], finished_remember _ finished.1, others⟩
      · exact ⟨rfl, finished_remember _ finished.1, finished.2⟩

section Calls

variable {name : String} {position : Position} {facts : Facts} {between : Progress}

theorem procedure_call_visited (follows : optimizer.Follows rules)
    (again : ∀ pass tree, revisit = some pass → tree.Everywhere (Tree.Ready rules) →
      VisitsSoundly optimizer.registry rules pass tree)
    (plain : SpecialForm.ofName? name = none) (named : Tree.isProcedureName name = true)
    (fit : progress.scopes.Fit optimizer.registry rules)
    (listed : VisitedList optimizer.registry rules .arguments progress.scopes between.scopes
      children children')
    (done : optimizer.inlineCall revisit name ⟨.call name, position, false, {}, children'⟩ between =
      .ok node' after) :
    Visited optimizer.registry rules progress.scopes after.scopes
      ⟨.call name, position, false, facts, children⟩ node' := by
  have call : Rewrites optimizer.registry rules .node (rules.known progress.scopes)
      [⟨.call name, position, false, facts, children⟩]
      [⟨.call name, position, false, {}, children'⟩] :=
    .procedureCall _ _ _ _ _ plain named listed.rewrites
  have exposed : ∀ (optimized : Bool) (facts : Facts) (nodes : List Tree),
      Tree.exposed ⟨.call name, position, optimized, facts, nodes⟩ = Tree.exposedAll nodes := by
    intro optimized facts nodes
    simp only [Tree.exposed, plain]
  have few : ∀ nodes : List Tree,
      (SpecialForm.ofName? name).any SpecialForm.isSequence = true → nodes ≠ [] := by
    intro nodes sequence
    rw [plain] at sequence
    cases sequence
  rcases inline_call_ok _ _ done with
    ⟨template, pass, replacement, on, found, some_pass, instantiated, replaced⟩ |
    ⟨rfl, rfl | rfl⟩
  · have inlining := follows.inlines on
    have still := fit.hides listed.hides
    have known : between.scopes.known name = some template := by
      unfold Scopes.known
      rw [found]
    rcases ((still.holds inlining).of_known known).replacement_ready
      (follows.apart inlining) listed.finished instantiated with ⟨harmless, ready⟩
    have visited := again pass replacement some_pass ready between node' after still replaced
    refine ⟨?_, visited.finished, ?_⟩
    · apply Rewrites.inline _ _ _ inlining plain named listed.rewrites
        (listed.hides.survives fit.some_frame) _ instantiated harmless.calm.exposed_nil
        visited.rewrites
      rw [Rules.known_on inlining]
      exact known
    · apply (listed.hides.append visited.hides).mono
      exact fun other member => List.mem_append_right _ member
  · refine ⟨call, finished_call (few _) listed.finished, ?_⟩
    rw [exposed]
    exact listed.hides
  · rcases inspected_arguments optimizer.registry children' listed.finished with
      ⟨same, finished⟩
    refine ⟨.same call (Tree.Same.procedure_call _ _ _ _ _ plain named
      (Tree.same_inspected _ _)), finished_call (few _) finished, ?_⟩
    rw [exposed, same]
    exact listed.hides

theorem function_call_visited (follows : optimizer.Follows rules)
    (plain : SpecialForm.ofName? name = none) (named : Tree.isProcedureName name = false)
    (listed : VisitedList optimizer.registry rules .arguments progress.scopes between.scopes
      children children')
    (done : optimizer.foldCall name ⟨.call name, position, false, {}, children'⟩ between =
      .ok node' after) :
    Visited optimizer.registry rules progress.scopes after.scopes
      ⟨.call name, position, false, facts, children⟩ node' := by
  rcases fold_call_ok _ done with ⟨builtin, found, accepted, ⟨rfl, rfl⟩ |
    ⟨value, store', rfl, rfl, constant, foldable, ran⟩⟩
  · refine ⟨.builtinCall _ _ _ _ _ plain named found listed.rewrites,
      finished_call (by simp [plain]) listed.finished, ?_⟩
    apply listed.hides.mono
    simp only [Tree.exposed, plain]
    exact fun other member => member
  · refine ⟨.fold _ _ _ _ _ _ plain named found accepted listed.rewrites constant foldable ran,
      .node (Tree.Finished.leaf rfl ?_ _ _ _) (List.forall_mem_nil _), ?_⟩
    · intro on value' same
      cases same
      apply follows.plain on name builtin position _ _ value store' found _ ran
      intro argument member
      rcases List.mem_filterMap.mp member with ⟨child, within, shown⟩
      apply (listed.finished child within).here.plain on
      rcases child with ⟨payload, place, settled, noted, nodes⟩
      cases payload with
      | literal value =>
          cases shown
          rfl
      | _ => cases shown
    · apply listed.hides.mono
      intro other member
      cases member

end Calls

theorem visit_variable {written : String} (bare : node.BareLeaf)
    (target : node.payload = .variable written)
    (done : optimizer.visit revisit node progress = .ok node' after) :
    node'.payload = .variable written ∧ after.scopes = progress.scopes := by
  rcases node with ⟨payload, position, optimized, facts, children⟩
  subst target
  have none : children = [] := bare rfl
  subst none
  cases optimized with
  | true =>
      rw [visit_settled _ _ rfl] at done
      cases done
      exact ⟨rfl, rfl⟩
  | false =>
      rw [visit_leaf _ _ rfl rfl] at done
      cases done
      exact ⟨rfl, rfl⟩

structure VisitedParts (registry : Registry) (rules : Rules) (scopes after : Scopes)
    (parts parts' : List Tree) : Prop where
  rewrites : Rewrites registry rules .parts (rules.known scopes) parts parts'
  body : Rewrites registry rules .node .nothing [bodyOf parts] [bodyOf parts']
  finished : ∀ part ∈ parts', part.Everywhere (Tree.Finished rules)
  hides : rules.Hides (Tree.exposedParts parts') scopes after
  names : Tree.parameterNames parts'.dropLast = Tree.parameterNames parts.dropLast

/-- Whatever the visits make of a node and of those inside of it is a rewriting, provided that the
node may be visited. -/
abbrev Tree.VisitedSoundly (optimizer : Optimizer) (rules : Rules)
    (revisit : Option (Tree → Pass Tree)) (node : Tree) : Prop :=
  node.Everywhere fun node => node.Everywhere (Tree.Ready rules) →
    VisitsSoundly optimizer.registry rules (optimizer.visit revisit) node

section Parameters

variable {scopes between last : Scopes} {param param' : Tree} {parts parts' : List Tree}

theorem parameter_visited (sound : node.VisitedSoundly optimizer rules revisit)
    (ready : node.Everywhere (Tree.Ready rules)) (written : node.parameter?.isSome = true)
    (fit : progress.scopes.Fit optimizer.registry rules)
    (done : optimizer.visit revisit node progress = .ok node' after) :
    node'.parameter?.map Prod.fst = node.parameter?.map Prod.fst ∧
      ∀ next next' rest rest',
        Rewrites optimizer.registry rules .parts (rules.known after.scopes) (next :: rest)
          (next' :: rest') →
        Rewrites optimizer.registry rules .parts (rules.known progress.scopes)
          (node :: next :: rest) (node' :: next' :: rest') := by
  rcases Option.isSome_iff_exists.mp written with ⟨⟨name, default⟩, shape⟩
  rcases Tree.parameter_eq_some shape with ⟨position, optimized, facts, children, rfl, -⟩ |
    ⟨position, optimized, facts, target, expression, others, rfl, named, -⟩
  · rcases visit_variable ready.here.bare rfl done with ⟨kept, same⟩
    rw [same]
    refine ⟨?_, fun next next' rest rest' later => .plainParameter rfl kept later⟩
    rcases node' with ⟨payload, _, _, _, _⟩
    subst kept
    rfl
  · have readyTarget := ready.inside target (by simp)
    have readyExpression := ready.inside expression (by simp)
    cases optimized with
    | true =>
        rw [visit_settled _ _ rfl] at done
        cases done
        refine ⟨rfl, fun next next' rest rest' later => ?_⟩
        apply Rewrites.defaultParameter _ _ _ _ _ _ named named (List.Subset.refl _)
          (Rewrites.stays _ _ expression _) _ later
        have hides := (settled_visited optimizer.registry ready.here rfl progress.scopes).hides
        apply (hides.mono _).survives fit.some_frame
        intro other member
        simp only [Tree.exposed, SpecialForm.ofName?_name, Tree.exposedAll]
        exact List.mem_append_right _ (List.mem_append_left _ member)
    | false =>
        rcases visit_form_ok _ _ (SpecialForm.ofName?_name .assignment) done with
          ⟨accepted, out, formed, rfl⟩
        have none : others = [] := by
          simp only [SpecialForm.arity, Arity.accepts_exactly, List.length_cons] at accepted
          exact List.length_eq_zero_iff.mp (by omega)
        subst none
        rcases visit_assignment_ok _ _ rfl formed with
          ⟨-, target', between, expression', first, second, rfl⟩
        rcases visit_variable readyTarget.here.bare named first with ⟨named', same⟩
        have visited := (sound.inside expression (by simp)).here readyExpression between
          expression' after (same ▸ fit) second
        rw [same] at visited
        refine ⟨?_, fun next next' rest rest' later => ?_⟩
        · rw [Tree.parameter_assigned _ _ _ _ _ named]
          exact (congrArg (Option.map Prod.fst)
            (Tree.parameter_assigned _ _ _ expression' [] named')).trans rfl
        · exact .defaultParameter _ _ _ _ _ _ named named' (List.Subset.refl _) visited.rewrites
            (visited.hides.survives fit.some_frame) later

theorem VisitedParts.nothing (registry : Registry) (scopes : Scopes) :
    VisitedParts registry rules scopes scopes [] [] :=
  ⟨.noParts _, Rewrites.literal_stays .void .unknown _, List.forall_mem_nil _, .refl scopes, rfl⟩

theorem VisitedParts.cons {registry : Registry} {next : Tree} {rest rest' : List Tree}
    (finished : param'.Everywhere (Tree.Finished rules))
    (hides : rules.Hides param'.exposed scopes between)
    (named : param'.parameter?.map Prod.fst = param.parameter?.map Prod.fst)
    (front : ∀ next next' rest rest',
      Rewrites registry rules .parts (rules.known between) (next :: rest) (next' :: rest') →
      Rewrites registry rules .parts (rules.known scopes) (param :: next :: rest)
        (param' :: next' :: rest'))
    (others : VisitedParts registry rules between last (next :: rest) rest') :
    VisitedParts registry rules scopes last (param :: next :: rest) (param' :: rest') := by
  rcases others.rewrites.parts_cons with ⟨next', later, rfl⟩
  refine ⟨front _ _ _ _ others.rewrites, others.body, ?_, hides.append others.hides, ?_⟩
  · exact List.forall_mem_cons.mpr ⟨finished, others.finished⟩
  · have names := others.names
    unfold Tree.parameterNames at names ⊢
    rw [List.dropLast_cons_cons, List.dropLast_cons_cons, List.filterMap_cons,
      List.filterMap_cons, named, names]

theorem visit_parts_visited (sound : ∀ part ∈ parts, part.VisitedSoundly optimizer rules revisit)
    (ready : ∀ part ∈ parts, part.Everywhere (Tree.Ready rules))
    (fit : progress.scopes.Fit optimizer.registry rules)
    (done : optimizer.visitParts revisit parts progress = .ok parts' after) :
    VisitedParts optimizer.registry rules progress.scopes after.scopes parts parts' := by
  induction parts generalizing progress parts' with
  | nil =>
      cases done
      exact .nothing _ _
  | cons param rest induction =>
      cases rest with
      | nil =>
          rw [Optimizer.visitParts] at done
          rcases bind_eq_ok done with ⟨body', final, framed, built⟩
          cases built
          rcases with_frame_ok framed with ⟨inner, visitedBody, rfl⟩
          have visited := (sound param (by simp)).here (ready param (by simp)) _ body' inner
            (fit.push .procedure) visitedBody
          have closed : inner.scopes.pop = progress.scopes := by
            rcases visited.hides with ⟨hidden, same, -⟩
            rw [same]
            exact Scopes.pop_hide_all_other hidden (by simp) fit.some_frame
          have rewritten := visited.rewrites
          rw [Rules.known_push_procedure] at rewritten
          refine ⟨.body _ _ _, rewritten, by simpa using visited.finished, ?_, rfl⟩
          exact closed ▸ .refl _
      | cons next later =>
          rcases visit_parts_cons _ _ done with
            ⟨written, param', between, rest', first, others, rfl⟩
          have soundParam := sound param (by simp)
          have readyParam := ready param (by simp)
          have visited := soundParam.here readyParam progress param' between fit first
          rcases parameter_visited soundParam readyParam written fit first with ⟨named, front⟩
          exact .cons visited.finished visited.hides named front
            (induction (fun part member => sound part (by simp [member]))
              (fun part member => ready part (by simp [member])) (fit.hides visited.hides) others)

structure VisitedClosure (registry : Registry) (rules : Rules) (scopes after : Scopes)
    (parts parts' : List Tree) : Prop where
  rewrites : Rewrites registry rules .parts (rules.known scopes) parts parts'
  body : rules.loose = false → Rewrites registry rules .node .nothing [bodyOf parts] [bodyOf parts']
  finished : ∀ part ∈ parts', part.Everywhere (Tree.Finished rules)
  hides : rules.Hides (Tree.exposedParts parts') scopes after

theorem visit_closure_visited
    (sound : ∀ part ∈ parts, part.VisitedSoundly optimizer rules revisit)
    (ready : ∀ part ∈ parts, part.Everywhere (Tree.Ready rules))
    (written : rules.loose = false → rules.inlining = false ∧
      ∀ param ∈ parts.dropLast, param.parameter?.isSome = true)
    (fit : progress.scopes.Fit optimizer.registry rules)
    (done : optimizer.visitAll revisit parts progress = .ok parts' after) :
    VisitedClosure optimizer.registry rules progress.scopes after.scopes parts parts' := by
  induction parts generalizing progress parts' with
  | nil =>
      cases done
      exact ⟨.noParts _, fun _ => Rewrites.literal_stays .void .unknown _, List.forall_mem_nil _,
        .refl _⟩
  | cons param rest induction =>
      rcases visit_all_cons _ _ done with ⟨param', between, rest', first, others, rfl⟩
      have soundParam := sound param (by simp)
      have readyParam := ready param (by simp)
      have visited := soundParam.here readyParam progress param' between fit first
      cases rest with
      | nil =>
          cases others
          refine ⟨.body _ _ _, fun tight => ?_, by simpa using visited.finished,
            visited.hides.mono (List.forall_mem_nil _)⟩
          have rewritten := visited.rewrites
          rw [Rules.known_off (written tight).1] at rewritten
          exact rewritten
      | cons next later =>
          have visitedRest := induction (fun part member => sound part (by simp [member]))
            (fun part member => ready part (by simp [member]))
            (fun tight => ⟨(written tight).1, fun other member => (written tight).2 other
              (by simpa using Or.inr member)⟩)
            (fit.hides visited.hides) others
          rcases visitedRest.rewrites.parts_cons with ⟨next', later', rfl⟩
          refine ⟨?_, visitedRest.body, ?_, visited.hides.append visitedRest.hides⟩
          · cases shape : param.parameter? with
            | some parameter =>
                have isSome : param.parameter?.isSome = true := by rw [shape, Option.isSome_some]
                exact (parameter_visited soundParam readyParam isSome fit first).2 _ _ _ _
                  visitedRest.rewrites
            | none =>
                have shown := visited.rewrites.exposes_no_more
                simp only [Tree.exposedBy, Tree.exposedAll, List.append_nil] at shown
                refine .malformedParameter _ shape (Or.inr ⟨?_, shown⟩)
                  visitedRest.rewrites.exposes_no_more
                cases loose : rules.loose with
                | true => rfl
                | false =>
                    have isSome := (written loose).2 param (by simp)
                    rw [shape] at isSome
                    cases isSome
          · exact List.forall_mem_cons.mpr ⟨visited.finished, visitedRest.finished⟩

theorem finished_analyzed (registry : Registry) (name : String) (params : List Tree) {body : Tree}
    (finished : body.Everywhere (Tree.Finished rules)) :
    (Definition.analyze registry name params body).2.Everywhere (Tree.Finished rules) := by
  refine analyzed_body_keeps finished (fun kind _ kept => finished_remember kind kept) ?_
  intro expression returned
  have only := (Tree.returned_eq_some returned).2
  refine ⟨finished.inside expression (by simp [only]), fun expression' facts kept => ?_⟩
  rcases body with ⟨payload, position, optimized, facts, children⟩
  subst only
  exact .node (finished.here.change (by simp)) (by simpa using kept)

theorem VisitedParts.analyzed {registry : Registry} {name : String} {params : List Tree}
    {body : Tree} (visited : VisitedParts registry rules scopes last parts (params ++ [body])) :
    VisitedParts registry rules scopes last parts
      (params ++ [(Definition.analyze registry name params body).2]) := by
  have finished := visited.finished
  rw [List.forall_mem_append] at finished
  have bodies := visited.body
  simp only [bodyOf, List.getLast?_concat, Option.getD_some] at bodies
  refine ⟨visited.rewrites.parts_body _, ?_, ?_, ?_, ?_⟩
  · simp only [bodyOf, List.getLast?_concat, Option.getD_some]
    exact .same bodies (Tree.Same.analyzed name params body)
  · have body' := finished_analyzed registry name params (finished.2 body (by simp))
    rw [List.forall_mem_append]
    exact ⟨finished.1, by simpa using body'⟩
  · rw [Tree.exposed_parts_body params _ body]
    exact visited.hides
  · have names := visited.names
    rw [List.dropLast_concat] at names ⊢
    exact names

end Parameters

structure Recorded (registry : Registry) (rules : Rules) (scopes between : Scopes)
    (parts parts' : List Tree) (definition : Definition) : Prop where
  visited : VisitedParts registry rules scopes between parts parts'
  template : ∀ template, definition = .inlinable template →
    ∃ params body body' expression, parts' = params ++ [body'] ∧ body.Same registry body' ∧
      Rewrites registry rules .node .nothing [bodyOf parts] [body] ∧
      body.returned? = some expression ∧ expression.Everywhere (Tree.Finished rules) ∧
      template.Describes registry params expression

section Definitions

variable {name defined : String} {position : Position} {facts : Facts} {nameNode : Tree}
  {parts parts' : List Tree} {scopes between : Scopes} {definition : Definition}

theorem exposed_definition {optimized : Bool} {facts : Facts}
    (special : SpecialForm.ofName? name = some .procedure)
    (given : nameNode.procedureName? = some defined) {other : String}
    (member : other ∈ Tree.exposed ⟨.call name, position, optimized, facts, nameNode :: parts⟩) :
    other = defined ∨ other ∈ Tree.exposedParts parts := by
  simp only [Tree.exposed, special, List.head?_cons, Option.bind_some, given,
    Option.toList_some, List.mem_append, List.mem_singleton,
    Tree.exposed_parts_named given] at member
  exact member

theorem definition_recorded {placement : Placement}
    (sound : ∀ part ∈ parts, part.VisitedSoundly optimizer rules revisit)
    (ready : ∀ part ∈ parts, part.Everywhere (Tree.Ready rules))
    (fit : progress.scopes.Fit optimizer.registry rules) {visitedParts : List Tree}
    {visited : Progress}
    (done : optimizer.visitDefinition revisit (nameNode :: parts) progress =
      .ok visitedParts visited)
    (recorded : optimizer.recordDefinition placement
      ⟨.call name, position, true, {}, visitedParts⟩ visited = .ok node' after) :
    ∃ defined nameNode' parts' definition,
      node' = ⟨.call name, position, true, {}, nameNode' :: parts'⟩ ∧
      nameNode.procedureName? = some defined ∧ nameNode'.procedureName? = some defined ∧
      Tree.isProcedureName defined = true ∧ nameNode'.Everywhere (Tree.Finished rules) ∧
      after.scopes = visited.scopes.define defined definition placement ∧
      Recorded optimizer.registry rules progress.scopes visited.scopes parts parts'
        definition := by
  rcases visit_definition_ok _ _ done with ⟨defined, rest', given, valid, others, rfl⟩
  have visitedRest := visit_parts_visited sound ready fit others
  rcases record_definition_ok _ rfl recorded with ⟨definition, parts', rfl, rfl, kept⟩
  have finished : Tree.Everywhere (Tree.Finished rules)
      ((Tree.literal (.string defined) nameNode.position).settle true) := by
    refine .node (Tree.Finished.leaf rfl ?_ _ _ _) nofun
    rintro on value ⟨⟩
    rfl
  refine ⟨defined, _, parts', definition, rfl, given, rfl, valid, finished, rfl, ?_⟩
  rcases kept with ⟨rfl, rfl, rfl⟩ | ⟨params, body, rfl, rfl, rfl⟩
  · exact ⟨visitedRest, nofun⟩
  · refine ⟨visitedRest.analyzed, fun template inlinable => ?_⟩
    rcases analyze_inlinable inlinable with ⟨expression, returned, described⟩
    have bodies := visitedRest.body
    simp only [bodyOf, List.getLast?_concat, Option.getD_some] at bodies
    refine ⟨params, body, _, expression, rfl, Tree.Same.analyzed _ _ _, bodies, returned, ?_,
      described⟩
    apply (visitedRest.finished body (by simp)).inside
    simp [(Tree.returned_eq_some returned).2]

theorem Recorded.rewrites {registry : Registry} {optimized optimized' : Bool} {facts' : Facts}
    {nameNode' : Tree} (special : SpecialForm.ofName? name = some .procedure)
    (given : nameNode.procedureName? = some defined)
    (given' : nameNode'.procedureName? = some defined)
    (valid : Tree.isProcedureName defined = true)
    (recorded : Recorded registry rules scopes between parts parts' definition) :
    Rewrites registry rules .node (rules.known scopes)
      [⟨.call name, position, optimized, facts, nameNode :: parts⟩]
      [⟨.call name, position, optimized', facts', nameNode' :: parts'⟩] := by
  apply Rewrites.definition _ _ _ _ _ special special (given'.trans given.symm) (Or.inr _)
    recorded.visited.rewrites recorded.visited.body
  simp [given, Option.filter, valid]

/-- What the frames hold after a direct definition is fit to be used. -/
theorem Recorded.sound {registry : Registry} {optimized : Bool}
    (apart : rules.inlining = true → registry.KeepsNamesApart)
    (ready : Tree.Ready rules ⟨.call name, position, optimized, facts, nameNode :: parts⟩)
    (special : SpecialForm.ofName? name = some .procedure)
    (recorded : Recorded registry rules scopes between parts parts' definition)
    (on : rules.inlining = true) {template : Template}
    (inlinable : definition = .inlinable template) : template.Sound registry rules := by
  rcases recorded.template template inlinable with
    ⟨params, body, body', expression, rfl, -, -, returned, finished, described⟩
  have names := recorded.visited.names
  rw [List.dropLast_concat] at names
  apply described.sound (apart on) on _ finished
  · rw [names]
    exact ready.unhidden on special
  · intro distinct
    rw [names]
    exact ready.distinct distinct special
  · intro param member
    exact recorded.visited.finished param (by simp [member])

theorem Recorded.finished {registry : Registry} {nameNode' : Tree}
    (special : SpecialForm.ofName? name = some .procedure)
    (finished : nameNode'.Everywhere (Tree.Finished rules))
    (recorded : Recorded registry rules scopes between parts parts' definition) :
    Tree.Everywhere (Tree.Finished rules)
      ⟨.call name, position, true, {}, nameNode' :: parts'⟩ := by
  apply finished_call
  · rw [special]
    exact nofun
  · exact List.forall_mem_cons.mpr ⟨finished, recorded.visited.finished⟩

theorem definition_visited {optimized : Bool} {nameNode' : Tree}
    (special : SpecialForm.ofName? name = some .procedure)
    (given : nameNode.procedureName? = some defined)
    (given' : nameNode'.procedureName? = some defined)
    (valid : Tree.isProcedureName defined = true)
    (finished : nameNode'.Everywhere (Tree.Finished rules))
    (recorded : Recorded optimizer.registry rules scopes between parts parts' definition) :
    Visited optimizer.registry rules scopes (between.hide defined)
      ⟨.call name, position, optimized, facts, nameNode :: parts⟩
      ⟨.call name, position, true, {}, nameNode' :: parts'⟩ := by
  refine ⟨recorded.rewrites special given given' valid, recorded.finished special finished, ?_⟩
  · have hides : rules.Hides [defined] between (between.hide defined) :=
      ⟨[defined], rfl, fun _ _ member => member⟩
    apply (recorded.visited.hides.append hides).mono
    intro other member
    rw [List.mem_append, List.mem_singleton]
    exact (exposed_definition special given' member).symm

end Definitions

structure VisitedStatements (registry : Registry) (rules : Rules) (scopes after : Scopes)
    (nodes nodes' : List Tree) : Prop where
  rewrites : Rewrites registry rules .statements (rules.known scopes) nodes nodes'
  finished : ∀ node ∈ nodes', node.Everywhere (Tree.Finished rules)
  hides : ∀ frame outer, scopes = frame :: outer → frame.kind = .sequence →
    ∃ frame' outer', after = frame' :: outer' ∧ frame'.kind = .sequence ∧
      rules.Hides (Tree.exposedAll nodes') outer outer'

section Statements

variable {scopes between last : Scopes} {front rest rest' : List Tree} {names : List String}

/-- Names that are hidden under the frame of a sequence are hidden in the frames around it too. -/
theorem Rules.Hides.around {frame : Frame} {outer : Scopes} (sequence : frame.kind = .sequence)
    (hides : rules.Hides names (frame :: outer) between) :
    ∃ frame' outer', between = frame' :: outer' ∧ frame'.kind = .sequence ∧
      rules.Hides names outer outer' := by
  rcases hides with ⟨hidden, rfl, covers⟩
  rcases Scopes.hide_all_sequence hidden sequence outer with ⟨frame', kind, same⟩
  exact ⟨frame', _, same, kind, hidden, rfl, covers⟩

theorem VisitedStatements.cons {registry : Registry}
    (rewrites : Rewrites registry rules .statements (rules.known scopes) (node :: rest)
      (front ++ rest'))
    (finished : ∀ statement ∈ front, statement.Everywhere (Tree.Finished rules))
    (around : ∀ frame outer, scopes = frame :: outer → frame.kind = .sequence →
      ∃ frame' outer', between = frame' :: outer' ∧ frame'.kind = .sequence ∧
        rules.Hides (Tree.exposedAll front) outer outer')
    (others : VisitedStatements registry rules between last rest rest') :
    VisitedStatements registry rules scopes last (node :: rest) (front ++ rest') := by
  refine ⟨rewrites, List.forall_mem_append.mpr ⟨finished, others.finished⟩, ?_⟩
  intro frame outer top sequence
  rcases around frame outer top sequence with ⟨frame', outer', next, sequence', hides⟩
  rcases others.hides frame' outer' next sequence' with ⟨last', final, same, kind, hides'⟩
  rw [Tree.exposed_all_append]
  exact ⟨last', final, same, kind, hides.append hides'⟩

theorem splice_finished (finished : node.Everywhere (Tree.Finished rules)) :
    ∀ statement ∈ splice node, statement.Everywhere (Tree.Finished rules) := by
  unfold splice
  split
  · exact finished.inside
  · simpa using finished

theorem splice_exposed {other : String} (member : other ∈ Tree.exposedAll (splice node)) :
    other ∈ node.exposed := by
  rcases node with ⟨payload, position, optimized, facts, children⟩
  unfold splice at member
  split at member
  · rename_i sequence
    cases payload with
    | call name =>
        rcases (Option.any_eq_true _ _).mp sequence with ⟨form, special, isSeq⟩
        rw [Tree.exposed_sequence special isSeq]
        exact member
    | _ => cases sequence
  · simpa [Tree.exposedAll] using member

/-- A direct definition is known after it by the template that was made of it, if any was. -/
theorem known_after_definition {frame : Frame} {outer : Scopes} {defined : String}
    {definition : Definition} (some_frame : scopes ≠ [])
    (hides : rules.Hides names scopes (frame :: outer)) (on : rules.inlining = true)
    {other : String} {template : Template}
    (found : rules.known (Scopes.define defined definition .direct (frame :: outer)) other =
      some template) :
    other = defined ∧ definition = .inlinable template ∨
      rules.known scopes other = some template ∧ other ≠ defined ∧ other ∉ names := by
  rw [Rules.known_on on] at found
  rcases Scopes.known_define_direct found with known | ⟨differs, before⟩
  · exact Or.inl known
  · rcases hides with ⟨hidden, same, covers⟩
    rw [same] at before
    rcases Scopes.known_hide_all some_frame before with ⟨known, outside⟩
    rw [Rules.known_on on]
    exact Or.inr ⟨known, differs, fun member => outside (covers on other member)⟩

/-- A direct definition in front of the statements that it is in force for. -/
theorem definition_statement_rewrites {name defined : String} {position : Position}
    {optimized : Bool} {facts : Facts} {nameNode nameNode' : Tree} {parts parts' : List Tree}
    {frame : Frame} {outer : Scopes} {definition : Definition}
    (apart : rules.inlining = true → optimizer.registry.KeepsNamesApart)
    (ready : Tree.Ready rules ⟨.call name, position, optimized, facts, nameNode :: parts⟩)
    (special : SpecialForm.ofName? name = some .procedure)
    (given : nameNode.procedureName? = some defined)
    (given' : nameNode'.procedureName? = some defined)
    (valid : Tree.isProcedureName defined = true) (some_frame : scopes ≠ [])
    (recorded : Recorded optimizer.registry rules scopes (frame :: outer) parts parts' definition)
    (later : Rewrites optimizer.registry rules .statements
      (rules.known (Scopes.define defined definition .direct (frame :: outer))) rest rest') :
    Rewrites optimizer.registry rules .statements (rules.known scopes)
      (⟨.call name, position, optimized, facts, nameNode :: parts⟩ :: rest)
      (⟨.call name, position, true, {}, nameNode' :: parts'⟩ :: rest') := by
  have plain : (rules.known scopes).Survives
        (Tree.exposed ⟨.call name, position, true, {}, nameNode' :: parts'⟩)
        (rules.known (Scopes.define defined definition .direct (frame :: outer))) →
      Rewrites optimizer.registry rules .statements (rules.known scopes)
        (⟨.call name, position, optimized, facts, nameNode :: parts⟩ :: rest)
        (⟨.call name, position, true, {}, nameNode' :: parts'⟩ :: rest') := fun survives =>
    .statement (recorded.rewrites special given given' valid) survives
      (Rewrites.spreads_alone _ _) later
  cases inlining : rules.inlining with
  | false =>
      apply plain
      rw [Rules.known_off inlining (Scopes.define defined definition .direct (frame :: outer))]
      exact Known.survives_nothing _ _
  | true =>
      have known := fun other template => @known_after_definition rules scopes _ frame outer defined
        definition some_frame recorded.visited.hides inlining other template
      cases definition with
      | hidden =>
          apply plain
          intro other template found
          rcases known other template found with ⟨-, impossible⟩ | ⟨before, differs, outside⟩
          · cases impossible
          · exact ⟨before, fun member =>
              (exposed_definition special given' member).elim differs outside⟩
      | inlinable template =>
          rcases recorded.template template rfl with
            ⟨params, body, body', expression, rfl, same, rewritten, returned, -, described⟩
          have sound := recorded.sound apart ready special inlining rfl
          have last : bodyOf (params ++ [body']) = body' := by simp [bodyOf]
          apply Rewrites.definitionStatement _ _ _ _ _ special special given given' valid
            recorded.visited.rewrites rewritten (by rw [last]; exact same) returned _ sound.trusted
            _ later
          · rw [List.dropLast_concat]
            exact described
          · intro other found afterwards
            rcases known other found afterwards with ⟨rfl, inlinable⟩ | before
            · cases inlinable
              exact Or.inl ⟨rfl, rfl⟩
            · exact Or.inr before

theorem definition_statement_recorded {name : String} {position : Position} {facts : Facts}
    {nodes' : List Tree} (follows : optimizer.Follows rules)
    (special : SpecialForm.ofName? name = some .procedure)
    (sound : ∀ child ∈ children, child.VisitedSoundly optimizer rules revisit)
    (ready : Tree.Everywhere (Tree.Ready rules) ⟨.call name, position, false, facts, children⟩)
    (fit : progress.scopes.Fit optimizer.registry rules)
    (done : optimizer.visitStatements revisit
      (⟨.call name, position, false, facts, children⟩ :: rest) progress = .ok nodes' after) :
    ∃ nameNode parts defined nameNode' parts' definition frame outer between rest',
      children = nameNode :: parts ∧ nameNode.procedureName? = some defined ∧
      nameNode'.procedureName? = some defined ∧ Tree.isProcedureName defined = true ∧
      nameNode'.Everywhere (Tree.Finished rules) ∧
      Recorded optimizer.registry rules progress.scopes (frame :: outer) parts parts' definition ∧
      between.scopes = Scopes.define defined definition .direct (frame :: outer) ∧
      between.scopes.Fit optimizer.registry rules ∧
      optimizer.visitStatements revisit rest between = .ok rest' after ∧
      nodes' = ⟨.call name, position, true, {}, nameNode' :: parts'⟩ :: rest' := by
  rcases visit_definition_statement _ _ special done with
    ⟨accepted, visitedParts, visited, node', between, rest', defining, recording, later, rfl⟩
  cases children with
  | nil => simp [SpecialForm.arity] at accepted
  | cons nameNode parts =>
      rcases definition_recorded (fun part member => sound part (by simp [member]))
        (fun part member => ready.inside part (by simp [member])) fit defining recording with
        ⟨defined, nameNode', parts', definition, rfl, given, given', valid, finished, defines,
          recorded⟩
      have fitParts := fit.hides recorded.visited.hides
      rcases List.exists_cons_of_ne_nil fitParts.some_frame with ⟨frame, outer, same⟩
      rw [same] at defines recorded fitParts
      have fitRest : between.scopes.Fit optimizer.registry rules := by
        rw [defines]
        refine ⟨List.cons_ne_nil _ _, fun on => ?_⟩
        exact (fitParts.holds on).define_direct defined fun template inlinable =>
          recorded.sound follows.apart ready.here special on inlinable
      refine ⟨nameNode, parts, defined, nameNode', parts', definition, frame, outer, between, rest',
        rfl, given, given', valid, finished, recorded, defines, fitRest, later, ?_⟩
      have form : Tree.specialForm? ⟨.call name, position, true, {}, nameNode' :: parts'⟩ =
        some .procedure := special
      unfold splice
      rw [form]
      rfl

theorem definition_statement_visited {name : String} {position : Position} {facts : Facts}
    {nodes' : List Tree} (follows : optimizer.Follows rules)
    (special : SpecialForm.ofName? name = some .procedure)
    (sound : ∀ child ∈ children, child.VisitedSoundly optimizer rules revisit)
    (ready : Tree.Everywhere (Tree.Ready rules) ⟨.call name, position, false, facts, children⟩)
    (fit : progress.scopes.Fit optimizer.registry rules) {frame : Frame} {outer : Scopes}
    (top : progress.scopes = frame :: outer) (sequence : frame.kind = .sequence)
    (done : optimizer.visitStatements revisit
      (⟨.call name, position, false, facts, children⟩ :: rest) progress = .ok nodes' after)
    (others : ∀ (between : Progress) rest', between.scopes.Fit optimizer.registry rules →
      (∃ frame outer, between.scopes = frame :: outer ∧ frame.kind = .sequence) →
      optimizer.visitStatements revisit rest between = .ok rest' after →
      VisitedStatements optimizer.registry rules between.scopes after.scopes rest rest') :
    VisitedStatements optimizer.registry rules progress.scopes after.scopes
      (⟨.call name, position, false, facts, children⟩ :: rest) nodes' := by
  rcases definition_statement_recorded follows special sound ready fit done with
    ⟨nameNode, parts, defined, nameNode', parts', definition, frame', outer', between, rest', rfl,
      given, given', valid, finished, recorded, defines, fitRest, later, rfl⟩
  have hides := recorded.visited.hides
  rw [top] at hides
  rcases hides.around sequence with ⟨frame'', outer'', same, sequence', around⟩
  cases same
  have visitedRest := others between rest' fitRest
    ⟨frame'.record defined definition, Scopes.hide defined outer', defines, sequence'⟩ later
  have rewritten := visitedRest.rewrites
  rw [defines] at rewritten
  show VisitedStatements _ _ _ _ (_ :: rest) ([_] ++ rest')
  apply VisitedStatements.cons _ _ _ visitedRest
  · exact definition_statement_rewrites follows.apart ready.here special given given' valid
      fit.some_frame recorded rewritten
  · simpa using recorded.finished special finished
  · intro frame'' outer'' top' _
    rw [top] at top'
    cases top'
    refine ⟨_, _, defines, sequence', ?_⟩
    have hidden : rules.Hides [defined] outer' (Scopes.hide defined outer') :=
      ⟨[defined], rfl, fun _ _ member => member⟩
    apply (around.append hidden).mono
    intro other member
    rw [List.mem_append, List.mem_singleton]
    simp only [Tree.exposedAll, List.append_nil] at member
    exact (exposed_definition special given' member).symm

theorem visit_statements_visited {nodes nodes' : List Tree} (follows : optimizer.Follows rules)
    (sound : ∀ node ∈ nodes, node.VisitedSoundly optimizer rules revisit)
    (ready : ∀ node ∈ nodes, node.Everywhere (Tree.Ready rules))
    (fit : progress.scopes.Fit optimizer.registry rules)
    (top : ∃ frame outer, progress.scopes = frame :: outer ∧ frame.kind = .sequence)
    (done : optimizer.visitStatements revisit nodes progress = .ok nodes' after) :
    VisitedStatements optimizer.registry rules progress.scopes after.scopes nodes nodes' := by
  induction nodes generalizing progress nodes' with
  | nil =>
      cases done
      refine ⟨.noStatements _, by simp, fun frame outer same sequence => ?_⟩
      exact ⟨frame, outer, same, sequence, .refl outer⟩
  | cons node rest induction =>
      rw [List.forall_mem_cons] at sound ready
      rcases top with ⟨frame, outer, top, sequence⟩
      by_cases special : node.specialForm? = some .procedure
      · rcases node with ⟨payload, position, optimized, facts, children⟩
        cases optimized with
        | true => exact absurd special (ready.1.here.settled rfl).2
        | false =>
            cases payload with
            | literal value => cases special
            | «variable» name => cases special
            | call name =>
                exact definition_statement_visited follows special sound.1.inside ready.1 fit top
                  sequence done fun between rest' fitRest topRest later =>
                    induction sound.2 ready.2 fitRest topRest later
      · rcases visit_statement _ _ special done with ⟨node', between, rest', first, later, rfl⟩
        have visited := sound.1.here ready.1 progress node' between fit first
        have hides := visited.hides
        rw [top] at hides
        rcases hides.around sequence with ⟨frame', outer', same, sequence', around⟩
        have visitedRest := induction sound.2 ready.2 (fit.hides visited.hides)
          ⟨frame', outer', same, sequence'⟩ later
        apply VisitedStatements.cons _ (splice_finished visited.finished) _ visitedRest
        · exact .statement visited.rewrites (visited.hides.survives fit.some_frame)
            (Tree.spreads_splice visited.finished.here.full) visitedRest.rewrites
        · intro frame'' outer'' top' _
          rw [top] at top'
          cases top'
          exact ⟨frame', outer', same, sequence', around.mono fun other => splice_exposed⟩

end Statements

theorem visit_branches_visited : (children : List Tree) → {children' : List Tree} →
    {progress : Progress} →
    (∀ child ∈ children, VisitsSoundly optimizer.registry rules (optimizer.visit revisit) child) →
    progress.scopes.Fit optimizer.registry rules →
    optimizer.visitBranches revisit children progress = .ok children' after →
    VisitedList optimizer.registry rules .branches progress.scopes after.scopes children children'
  | [], _, _, _, _, done => by
      cases done
      exact ⟨.noBranches _, List.forall_mem_nil _, .refl _⟩
  | [node], _, progress, sound, fit, done => by
      rcases visit_branches_single _ _ done with ⟨node', visited, rfl⟩
      have otherwise := sound node (by simp) progress node' after fit visited
      exact ⟨.otherwise otherwise.rewrites, by simpa using otherwise.finished,
        otherwise.hides.append (.refl _)⟩
  | condition :: branch :: rest, _, progress, sound, fit, done => by
      rcases visit_branches_cons _ _ done with ⟨condition', decided, first, outcome⟩
      have soundBranch := sound branch (by simp)
      have soundRest := fun child member =>
        sound child (List.mem_cons_of_mem condition (List.mem_cons_of_mem branch member))
      have visited := sound condition (by simp) progress condition' decided fit first
      have still := fit.hides visited.hides
      have quiet : rules.Hides [] progress.scopes decided.scopes :=
        visited.hides.mono (List.forall_mem_nil _)
      have survives := quiet.survives fit.some_frame
      rcases outcome with ⟨value, branch', literal, truthy, second, rfl⟩ |
        ⟨value, literal, falsy, second⟩ | ⟨branch', between, rest', second, later, rfl⟩
      · have taken := soundBranch decided branch' after still second
        refine ⟨.taken visited.rewrites literal truthy survives taken.rewrites,
          by simpa using taken.finished, ?_⟩
        exact quiet.append (taken.hides.append (.refl _))
      · have others := visit_branches_visited rest soundRest still second
        exact ⟨.dropped visited.rewrites literal falsy survives others.rewrites, others.finished,
          quiet.append others.hides⟩
      · have open_branch := soundBranch decided branch' between still second
        have others := visit_branches_visited rest soundRest (still.hides open_branch.hides) later
        have quietBranch : rules.Hides [] decided.scopes between.scopes :=
          open_branch.hides.mono (List.forall_mem_nil _)
        refine ⟨.undecided visited.rewrites (visited.hides.survives fit.some_frame)
          open_branch.rewrites (quietBranch.survives still.some_frame) others.rewrites, ?_, ?_⟩
        · exact List.forall_mem_cons.mpr ⟨visited.finished,
            List.forall_mem_cons.mpr ⟨open_branch.finished, others.finished⟩⟩
        · exact visited.hides.append (open_branch.hides.append others.hides)

section Forms

variable {name : String} {position : Position} {facts : Facts} {form : SpecialForm} {out : Tree}

theorem collapse_finished {statements : List Tree}
    (finished : ∀ statement ∈ statements, statement.Everywhere (Tree.Finished rules)) :
    (collapse position statements).Everywhere (Tree.Finished rules) := by
  match statements with
  | [] =>
      refine .node (Tree.Finished.leaf rfl ?_ _ _ _) nofun
      rintro on value ⟨⟩
      rfl
  | [statement] => exact finished statement (by simp)
  | first :: second :: rest => exact finished_call (fun _ => by simp) finished

theorem mem_drop_voids {statements : List Tree} {statement : Tree}
    (member : statement ∈ dropVoids statements) : statement ∈ statements := by
  match statements with
  | [] => exact member
  | [last] => exact member
  | first :: next :: rest =>
      rw [dropVoids] at member
      split at member
      · exact List.mem_cons_of_mem _ (mem_drop_voids member)
      · rcases List.mem_cons.mp member with rfl | later
        · exact List.mem_cons_self
        · exact List.mem_cons_of_mem _ (mem_drop_voids later)

theorem sequence_visited (follows : optimizer.Follows rules)
    (special : SpecialForm.ofName? name = some form) (isSeq : form.isSequence = true)
    (sound : ∀ child ∈ children, child.VisitedSoundly optimizer rules revisit)
    (ready : ∀ child ∈ children, child.Everywhere (Tree.Ready rules))
    (fit : progress.scopes.Fit optimizer.registry rules)
    (done : visitForm optimizer revisit ⟨.call name, position, false, facts, children⟩ form
      progress = .ok out after) :
    Visited optimizer.registry rules progress.scopes after.scopes
      ⟨.call name, position, false, facts, children⟩ out := by
  have steps : visitForm optimizer revisit ⟨.call name, position, false, facts, children⟩ form =
      (Pass.withFrame .sequence (optimizer.visitStatements revisit children) >>= fun statements =>
        pure (collapse position (dropVoids statements))) := by
    cases form <;> first | rfl | cases isSeq
  rw [steps] at done
  rcases bind_eq_ok done with ⟨statements, final, framed, built⟩
  cases built
  rcases with_frame_ok framed with ⟨inner, visiting, rfl⟩
  have visited := visit_statements_visited follows sound ready (fit.push .sequence)
    ⟨_, _, rfl, rfl⟩ visiting
  rcases visited.hides _ _ rfl rfl with ⟨frame', outer', same, -, hides⟩
  have popped : inner.scopes.pop = outer' := by
    rw [same]
    exact Scopes.pop_cons frame' (fit.hides hides).some_frame
  have rewritten := visited.rewrites
  rw [Rules.known_push (by simp)] at rewritten
  refine ⟨?_, collapse_finished fun statement member =>
    visited.finished statement (mem_drop_voids member), ?_⟩
  · exact .same (.sequence position position false false facts {} special isSeq
      (SpecialForm.ofName?_name .sequence) rfl rewritten)
      (Tree.same_flatten position position false {} statements)
  · rw [Tree.exposed_collapse, Tree.exposed_drop_voids]
    exact popped ▸ hides

theorem branching_visited (special : SpecialForm.ofName? name = some form)
    (branching : form = .conditional ∨ form = .choice)
    (accepted : form.arity.accepts children.length = true)
    (sound : ∀ child ∈ children, VisitsSoundly optimizer.registry rules
      (optimizer.visit revisit) child)
    (fit : progress.scopes.Fit optimizer.registry rules)
    (done : visitForm optimizer revisit ⟨.call name, position, false, facts, children⟩ form
      progress = .ok out after) :
    Visited optimizer.registry rules progress.scopes after.scopes
      ⟨.call name, position, false, facts, children⟩ out := by
  have steps : visitForm optimizer revisit ⟨.call name, position, false, facts, children⟩ form =
      (optimizer.visitBranches revisit children >>= fun branches =>
        pure (resolve ⟨.call name, position, false, facts, children⟩ branches)) := by
    rcases branching with rfl | rfl <;> rfl
  rw [steps] at done
  rcases bind_eq_ok done with ⟨branches, final, visiting, built⟩
  cases built
  have visited := visit_branches_visited children sound fit visiting
  have fewer := visited.rewrites.branches_length rfl
  refine ⟨.branching position false facts special branching accepted visited.rewrites
    (Tree.chooses_resolve position false facts children special branching accepted fewer), ?_, ?_⟩
  · match branches with
    | [] =>
        refine .node (Tree.Finished.leaf rfl ?_ _ _ _) nofun
        rintro on value ⟨⟩
        rfl
    | [branch] => exact visited.finished branch (by simp)
    | first :: second :: rest => exact finished_call (fun _ => by simp) visited.finished
  · apply visited.hides.mono
    intro other member
    match branches with
    | [] => cases member
    | [branch] => simpa [Tree.exposedAll, resolve] using member
    | first :: second :: rest =>
        rcases branching with rfl | rfl
        all_goals simpa only [resolve, Tree.setChildren, Tree.forget, Tree.exposed, special]
          using member

theorem procedure_visited (special : SpecialForm.ofName? name = some .procedure)
    (accepted : SpecialForm.procedure.arity.accepts children.length = true)
    (sound : ∀ child ∈ children, child.VisitedSoundly optimizer rules revisit)
    (ready : ∀ child ∈ children, child.Everywhere (Tree.Ready rules))
    (fit : progress.scopes.Fit optimizer.registry rules)
    (done : visitForm optimizer revisit ⟨.call name, position, false, facts, children⟩ .procedure
      progress = .ok out after) :
    Visited optimizer.registry rules progress.scopes after.scopes
      ⟨.call name, position, false, facts, children⟩ out := by
  rcases bind_eq_ok done with ⟨visitedParts, visited, defining, recording⟩
  cases children with
  | nil => simp [SpecialForm.arity] at accepted
  | cons nameNode parts =>
      rcases definition_recorded (fun part member => sound part (by simp [member]))
        (fun part member => ready part (by simp [member])) fit defining recording with
        ⟨defined, nameNode', parts', definition, rfl, given, given', valid, finished, defines,
          recorded⟩
      rw [defines]
      exact definition_visited special given given' valid finished recorded

theorem assignment_visited (special : SpecialForm.ofName? name = some .assignment)
    (accepted : SpecialForm.assignment.arity.accepts children.length = true)
    (sound : ∀ child ∈ children, VisitsSoundly optimizer.registry rules
      (optimizer.visit revisit) child)
    (ready : ∀ child ∈ children, child.Everywhere (Tree.Ready rules))
    (fit : progress.scopes.Fit optimizer.registry rules)
    (done : visitForm optimizer revisit ⟨.call name, position, false, facts, children⟩ .assignment
      progress = .ok out after) :
    Visited optimizer.registry rules progress.scopes after.scopes
      ⟨.call name, position, false, facts, children⟩ out := by
  simp only [SpecialForm.arity, Arity.accepts_exactly] at accepted
  rcases List.length_eq_two.mp accepted with ⟨target, expression, rfl⟩
  rcases visit_assignment_ok _ _ rfl done with
    ⟨⟨written, named⟩, target', between, expression', first, second, rfl⟩
  have visitedTarget := sound target (by simp) progress target' between fit first
  rcases visit_variable (ready target (by simp)).here.bare named first with ⟨named', same⟩
  have visited := sound expression (by simp) between expression' after (same ▸ fit) second
  rw [same] at visited
  refine ⟨.assignment _ _ _ _ _ special special named named' visited.rewrites, ?_, ?_⟩
  · apply finished_call
    · rw [special]
      exact fun sequence => absurd sequence (by decide)
    · exact List.forall_mem_cons.mpr ⟨visitedTarget.finished, by simpa using visited.finished⟩
  · apply visited.hides.mono
    intro other member
    rcases target' with ⟨payload, _, _, _, _⟩
    subst named'
    simpa [Tree.exposed, special, Tree.exposedAll] using member

theorem closure_visited (special : SpecialForm.ofName? name = some .closure)
    (sound : ∀ child ∈ children, child.VisitedSoundly optimizer rules revisit)
    (ready : Tree.Everywhere (Tree.Ready rules) ⟨.call name, position, false, facts, children⟩)
    (fit : progress.scopes.Fit optimizer.registry rules)
    (done : visitForm optimizer revisit ⟨.call name, position, false, facts, children⟩ .closure
      progress = .ok out after) :
    Visited optimizer.registry rules progress.scopes after.scopes
      ⟨.call name, position, false, facts, children⟩ out := by
  rcases bind_eq_ok done with ⟨parts, final, framed, built⟩
  cases built
  rcases with_frame_ok framed with ⟨inner, visiting, rfl⟩
  have visited := visit_closure_visited sound ready.inside (ready.here.written special)
    (fit.push .closure) visiting
  have popped : inner.scopes.pop = progress.scopes := by
    rcases visited.hides with ⟨hidden, same, -⟩
    rw [same]
    exact Scopes.pop_hide_all_other hidden (by simp) fit.some_frame
  have rewritten := visited.rewrites
  rw [Rules.known_push (by simp)] at rewritten
  refine ⟨.closure _ _ _ _ _ special special rewritten (Or.inr (ready.here.closures special))
    visited.body, finished_call ?_ visited.finished, [], popped, fun on other member => ?_⟩
  · rw [special]
    exact nofun
  · have fewer := rewritten.exposes_no_more
    simp only [Tree.exposedBy] at fewer
    have none : Tree.exposedParts children = [] := ready.here.enclosed special on
    rw [none] at fewer
    simp only [Tree.setChildren, Tree.forget, Tree.exposed, special] at member
    exact fewer member

/-- At most one argument is evaluated like a sequence of at most one statement. -/
theorem Rewrites.statements_of_arguments {registry : Registry} {known : Known}
    (rewritten : Rewrites registry rules .arguments known children children')
    (few : children.length ≤ 1) : Rewrites registry rules .statements known children children' := by
  cases rewritten with
  | noArguments => exact .noStatements known
  | argument node survives rest =>
      cases rest with
      | noArguments =>
          exact .statement node survives (Rewrites.spreads_alone registry _) (.noStatements _)
      | argument => simp at few

theorem Rewrites.arguments_length {registry : Registry} {known : Known}
    (rewritten : Rewrites registry rules .arguments known children children') :
    children'.length = children.length := by
  induction children generalizing known children' with
  | nil =>
      cases rewritten
      rfl
  | cons child rest induction =>
      cases rewritten with
      | argument node survives others =>
          rw [List.length_cons, List.length_cons, induction others]

theorem evaluating_visited (special : SpecialForm.ofName? name = some form)
    (evaluating : form = .returning ∨ form = .execution)
    (accepted : form.arity.accepts children.length = true)
    (sound : ∀ child ∈ children, VisitsSoundly optimizer.registry rules
      (optimizer.visit revisit) child)
    (fit : progress.scopes.Fit optimizer.registry rules)
    (done : visitForm optimizer revisit ⟨.call name, position, false, facts, children⟩ form
      progress = .ok out after) :
    Visited optimizer.registry rules progress.scopes after.scopes
      ⟨.call name, position, false, facts, children⟩ out := by
  have steps : visitForm optimizer revisit ⟨.call name, position, false, facts, children⟩ form =
      (optimizer.visitAll revisit children >>= fun visited =>
        pure ⟨.call name, position, false, {}, visited⟩) := by
    rcases evaluating with rfl | rfl <;> rfl
  rw [steps] at done
  rcases bind_eq_ok done with ⟨visitedChildren, final, visiting, built⟩
  cases built
  have visited := visit_all_visited sound fit visiting
  have accepted' : form.arity.accepts visitedChildren.length = true := by
    rw [visited.rewrites.arguments_length]
    exact accepted
  refine ⟨?_, finished_call ?_ visited.finished, ?_⟩
  · rcases evaluating with rfl | rfl
    · simp only [SpecialForm.arity, Arity.accepts_between] at accepted
      exact .returning _ _ _ _ _ _ special special (by simp [SpecialForm.arity, accepted]) accepted'
        (visited.rewrites.statements_of_arguments accepted.2)
    · exact .execution _ _ _ _ _ special special accepted accepted' visited.rewrites
  · rw [special]
    rcases evaluating with rfl | rfl <;> exact fun sequence => absurd sequence (by decide)
  · apply visited.hides.mono
    rcases evaluating with rfl | rfl
    all_goals
      intro other member
      simpa only [Tree.exposed, special] using member

end Forms

/-- A visit of a tree that may be visited is a rewriting of it. -/
theorem visit_visited (follows : optimizer.Follows rules)
    (again : ∀ pass tree, revisit = some pass → tree.Everywhere (Tree.Ready rules) →
      VisitsSoundly optimizer.registry rules pass tree) (tree : Tree) :
    tree.VisitedSoundly optimizer rules revisit := by
  apply Tree.Everywhere.intro
  intro payload position optimized facts children induction ready progress node' after fit done
  have sound : ∀ child ∈ children, VisitsSoundly optimizer.registry rules
      (optimizer.visit revisit) child :=
    fun child member => (induction child member).here (ready.inside child member)
  cases optimized with
  | true =>
      rw [visit_settled _ _ rfl] at done
      cases done
      exact settled_visited _ ready.here rfl _
  | false =>
      cases payload with
      | literal value =>
          rw [visit_leaf _ _ rfl rfl] at done
          cases done
          exact leaf_visited _ ready.here rfl _
      | «variable» name =>
          rw [visit_leaf _ _ rfl rfl] at done
          cases done
          exact leaf_visited _ ready.here rfl _
      | call name =>
          cases special : SpecialForm.ofName? name with
          | some form =>
              rcases visit_form_ok _ _ special done with ⟨accepted, out, formed, rfl⟩
              apply Visited.settle
              cases form with
              | autoConcat | sequence =>
                  exact sequence_visited follows special rfl induction ready.inside fit formed
              | conditional =>
                  exact branching_visited special (Or.inl rfl) accepted sound fit formed
              | choice => exact branching_visited special (Or.inr rfl) accepted sound fit formed
              | procedure =>
                  exact procedure_visited special accepted induction ready.inside fit formed
              | assignment =>
                  exact assignment_visited special accepted sound ready.inside fit formed
              | closure => exact closure_visited special induction ready fit formed
              | returning =>
                  exact evaluating_visited special (Or.inl rfl) accepted sound fit formed
              | execution =>
                  exact evaluating_visited special (Or.inr rfl) accepted sound fit formed
          | none =>
              rcases visit_call_ok _ _ special done with
                ⟨children', between, out, visiting, called, rfl⟩
              have listed := visit_all_visited sound fit visiting
              apply Visited.settle
              unfold visitCall at called
              split at called
              · rename_i named
                exact procedure_call_visited follows again special named fit listed called
              · rename_i unnamed
                exact function_call_visited follows special (by simpa using unnamed) listed called

/-- Replacements inside of replacements are rewritings too. -/
theorem pass_visited (follows : optimizer.Follows rules) (depth : Nat) (tree : Tree)
    (ready : tree.Everywhere (Tree.Ready rules)) :
    VisitsSoundly optimizer.registry rules (optimizer.pass depth) tree := by
  induction depth generalizing tree with
  | zero => exact (visit_visited follows (fun _ _ none => by cases none) tree).here ready
  | succ depth induction =>
      apply (visit_visited follows _ tree).here ready
      rintro pass other ⟨⟩ readyOther
      exact induction other readyOther

theorem run_rewrites (follows : optimizer.Follows rules) {depth : Nat} {tree optimized : Tree}
    (ready : tree.Everywhere (Tree.Ready rules)) {store store' : Store}
    (done : runVisit (optimizer.pass depth) tree store = .ok optimized store') :
    Rewrites optimizer.registry rules .node .nothing [tree] [optimized] := by
  rcases run_visit_ok done with ⟨final, passed, -⟩
  have visited := pass_visited follows depth tree ready ⟨Scopes.initial, store⟩ optimized final
    .initial passed
  rw [← @Rules.known_initial rules]
  exact visited.rewrites

end Visits

end TreeScript
