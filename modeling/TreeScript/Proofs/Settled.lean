import TreeScript.Proofs.Footprint
import TreeScript.Proofs.Origins
/-!
# Settled subtrees hide definitions

A subtree that an optimizer has settled is not visited again, but its definitions still take place
when it is evaluated. So once a settled subtree has been passed, no name that evaluating it can
define is looked up as a template that was recorded before. This is followed along everything that
may come next in the same environment: further visits, frames that are entered, sequences that are
left, and definitions that are recorded anew.

A settled definition that is a statement of a sequence is recorded under its own name and nothing
else, so the statement needs that none of its defaults makes a definition. Nothing is claimed of a
settled subtree in a parameter of a closure once the frame of the closure is left.
-/

namespace TreeScript

set_option autoImplicit false

/-- Some evaluation of a node, in some environment, changes the procedure of a name in that
environment. -/
def Tree.CanDefine (node : Tree) (name : String) : Prop :=
  ∃ context run machine, (finalMachine (evaluate context run node machine)).env.procedure? name ≠
    machine.env.procedure? name

theorem Tree.CanDefine.exposed {node : Tree} {name : String} (defines : node.CanDefine name) :
    name ∈ node.exposed := by
  obtain ⟨context, run, machine, changes⟩ := defines
  by_contra outside
  have touches := (evaluate_touches context run node.footprint node).here node.stays_in_footprint
  exact changes ((touches.final machine).definitions name fun defined =>
    outside (Tree.exposed_of_footprint defined))

theorem Scopes.pop_ne_nil {scopes : Scopes} (some_frame : scopes ≠ []) : scopes.pop ≠ [] := by
  unfold pop
  split
  · exact List.cons_ne_nil _ _
  · exact some_frame

/-- A frame afterwards: some of its names may have been hidden, and nothing else has changed. -/
structure Frame.Fades (frame frame' : Frame) : Prop where
  kind : frame'.kind = frame.kind
  names : ∀ name, frame'.definitions.find? name = frame.definitions.find? name ∨
    frame'.definitions.find? name = some .hidden

namespace Frame.Fades

variable {frame frame' frame'' : Frame}

theorem refl (frame : Frame) : frame.Fades frame := ⟨rfl, fun _ => Or.inl rfl⟩

theorem trans (first : frame.Fades frame') (second : frame'.Fades frame'') :
    frame.Fades frame'' := by
  refine ⟨second.kind.trans first.kind, fun name => ?_⟩
  obtain same | hidden := second.names name
  · rw [same]
    exact first.names name
  · exact Or.inr hidden

theorem hide (frame : Frame) (name : String) : frame.Fades (frame.record name .hidden) := by
  refine ⟨rfl, fun other => ?_⟩
  rw [Scopes.find_record]
  split
  · exact Or.inr rfl
  · exact Or.inl rfl

end Frame.Fades

/-- What happens to the frames in a visit amounts to hiding names. The innermost frames, as many as
the number says, may change in any way. -/
structure Scopes.Fades (inner : Nat) (scopes after : Scopes) : Prop where
  frames : List.Forall₂ Frame.Fades (scopes.drop inner) (after.drop inner)
  length : after.length = scopes.length

namespace Scopes.Fades

variable {inner : Nat} {scopes between after : Scopes}

theorem refl (inner : Nat) (scopes : Scopes) : scopes.Fades inner scopes :=
  ⟨List.forall₂_same.mpr fun frame _ => .refl frame, rfl⟩

theorem trans (first : scopes.Fades inner between) (second : between.Fades inner after) :
    scopes.Fades inner after := by
  refine ⟨?_, second.length.trans first.length⟩
  have faded := first.frames
  have faded' := second.frames
  generalize scopes.drop inner = frames, between.drop inner = frames', after.drop inner = frames''
    at faded faded' ⊢
  induction faded generalizing frames'' with
  | nil => exact faded'
  | cons head _ induction =>
      cases faded' with
      | cons head' tail' => exact .cons (head.trans head') (induction _ tail')

theorem some_frame (fades : scopes.Fades inner after) (some_frame : scopes ≠ []) : after ≠ [] := by
  rw [← List.length_pos_iff] at some_frame ⊢
  rwa [fades.length]

theorem inside (fades : scopes.Fades 0 after) : scopes.Fades inner after :=
  ⟨List.forall₂_drop inner fades.frames, fades.length⟩

theorem cons {frame frame' : Frame} (head : frame.Fades frame') (tail : scopes.Fades 0 after) :
    Scopes.Fades 0 (frame :: scopes) (frame' :: after) :=
  ⟨.cons head tail.frames, congrArg Nat.succ tail.length⟩

theorem hide (name : String) (scopes : Scopes) : scopes.Fades 0 (scopes.hide name) := by
  induction scopes with
  | nil => exact refl 0 []
  | cons frame outer induction =>
      rw [Scopes.hide]
      split
      · exact induction.cons (.hide frame name)
      · exact (refl 0 outer).cons (.hide frame name)

theorem hide_all (names : List String) (scopes : Scopes) :
    scopes.Fades 0 (hideAll names scopes) := by
  induction names generalizing scopes with
  | nil => exact refl 0 scopes
  | cons name names induction => exact (hide name scopes).trans (induction _)

/-- A direct definition may change the frame of its sequence in any way. -/
theorem define (name : String) (definition : Definition) (placement : Placement)
    (scopes : Scopes) : scopes.Fades 1 (scopes.define name definition placement) := by
  cases placement with
  | nested => exact (hide name scopes).inside
  | direct =>
      cases scopes with
      | nil => exact refl 1 []
      | cons frame outer =>
          have hidden := hide name outer
          exact ⟨hidden.frames, congrArg Nat.succ hidden.length⟩

/-- Whatever happens inside of a frame, the frames around it only fade. -/
theorem pop {kind : FrameKind} (some_frame : scopes ≠ [])
    (fades : (scopes.push kind).Fades 1 after) : scopes.Fades 0 after.pop := by
  obtain ⟨frames, length⟩ := fades
  cases after with
  | nil => cases length
  | cons frame outer =>
      have below : outer ≠ [] := by
        rintro rfl
        exact some_frame (List.length_eq_zero_iff.mp (Nat.succ.inj length).symm)
      rw [pop_cons frame below]
      exact ⟨frames, Nat.succ.inj length⟩

end Scopes.Fades

/-- An action of an optimizer that only hides names, except in the innermost frames. -/
def Pass.Fades {Result : Type} (inner : Nat) (action : Pass Result) : Prop :=
  ∀ progress result after, progress.scopes ≠ [] → action progress = .ok result after →
    progress.scopes.Fades inner after.scopes

namespace Pass.Fades

variable {inner : Nat} {Item Result : Type}

theorem still {action : Pass Item}
    (keeps : ∀ progress item after, action progress = .ok item after →
      after.scopes = progress.scopes) : Pass.Fades inner action := by
  intro progress item after some_frame done
  rw [keeps progress item after done]
  exact .refl inner _

theorem pure (item : Item) : Pass.Fades inner (Pure.pure item) :=
  still fun _ _ _ done => by
    cases done
    rfl

theorem bind {action : Pass Item} {next : Item → Pass Result} (first : Pass.Fades inner action)
    (others : ∀ item, Pass.Fades inner (next item)) : Pass.Fades inner (action >>= next) := by
  intro progress result after some_frame done
  obtain ⟨item, between, started, continued⟩ := bind_eq_ok done
  have begun := first progress item between some_frame started
  exact begun.trans (others item between result after (begun.some_frame some_frame) continued)

theorem inside {action : Pass Item} (fades : Pass.Fades 0 action) : Pass.Fades inner action :=
  fun progress item after some_frame done => (fades progress item after some_frame done).inside

theorem with_frame {action : Pass Item} (fades : Pass.Fades 1 action) (kind : FrameKind) :
    Pass.Fades 0 (Pass.withFrame kind action) := by
  intro progress item after some_frame done
  obtain ⟨within, ran, rfl⟩ := with_frame_ok done
  exact (fades _ item within (List.cons_ne_nil _ _) ran).pop some_frame

end Pass.Fades

section Visits

variable {optimizer : Optimizer} {revisit : Option (Tree → Pass Tree)} {nodes : List Tree}

theorem check_arity_fades (name : String) (arity : Arity) (node : Tree) :
    Pass.Fades 0 (checkArity name arity node) :=
  .still fun progress _ after done => by rw [(check_arity_ok done).2]

theorem visit_all_fades (fades : ∀ node ∈ nodes, Pass.Fades 0 (optimizer.visit revisit node)) :
    Pass.Fades 0 (optimizer.visitAll revisit nodes) := by
  induction nodes with
  | nil =>
      rw [Optimizer.visitAll]
      exact .pure []
  | cons node rest induction =>
      rw [List.forall_mem_cons] at fades
      rw [Optimizer.visitAll]
      exact fades.1.bind fun node' => (induction fades.2).bind fun rest' => .pure _

theorem visit_branches_fades : (nodes : List Tree) →
    (∀ node ∈ nodes, Pass.Fades 0 (optimizer.visit revisit node)) →
    Pass.Fades 0 (optimizer.visitBranches revisit nodes)
  | [], _ => by
      rw [Optimizer.visitBranches]
      exact .pure []
  | [otherwise], fades => by
      rw [Optimizer.visitBranches]
      exact (fades otherwise List.mem_cons_self).bind fun branch => .pure _
  | condition :: branch :: rest, fades => by
      rw [List.forall_mem_cons, List.forall_mem_cons] at fades
      rw [Optimizer.visitBranches]
      refine fades.1.bind fun condition' => ?_
      have later := visit_branches_fades rest fades.2.2
      cases optimizer.decide? condition' with
      | none => exact fades.2.1.bind fun branch' => later.bind fun rest' => .pure _
      | some truth =>
          cases truth with
          | true => exact fades.2.1.bind fun branch' => .pure _
          | false => exact later

theorem visit_parts_fades : (nodes : List Tree) →
    (∀ node ∈ nodes, Pass.Fades 0 (optimizer.visit revisit node)) →
    Pass.Fades 0 (optimizer.visitParts revisit nodes)
  | [], _ => by
      rw [Optimizer.visitParts]
      exact .pure []
  | [body], fades => by
      rw [Optimizer.visitParts]
      exact ((fades body List.mem_cons_self).inside.with_frame .procedure).bind
        fun body' => .pure _
  | param :: next :: rest, fades => by
      rw [List.forall_mem_cons] at fades
      have checked : Pass.Fades 0 (checkParameter param) :=
        .still fun progress _ after done => by rw [(check_parameter_ok done).2]
      rw [Optimizer.visitParts]
      exact checked.bind fun _ => fades.1.bind fun param' =>
        (visit_parts_fades (next :: rest) fades.2).bind fun others => .pure _

theorem visit_definition_fades
    (fades : ∀ node ∈ nodes, Pass.Fades 0 (optimizer.visit revisit node)) :
    Pass.Fades 0 (optimizer.visitDefinition revisit nodes) := by
  cases nodes with
  | nil =>
      rw [Optimizer.visitDefinition]
      exact .pure []
  | cons nameNode rest =>
      rw [List.forall_mem_cons] at fades
      have named : Pass.Fades 0 (normalizeName nameNode) := .still fun progress _ after done => by
        obtain ⟨_, -, -, -, rfl⟩ := normalize_name_ok done
        rfl
      rw [Optimizer.visitDefinition]
      exact named.bind fun name => (visit_parts_fades rest fades.2).bind fun parts => .pure _

/-- What a definition records stands in the frame of its sequence and nowhere else. -/
theorem record_definition_fades (placement : Placement) (node : Tree) :
    Pass.Fades 1 (optimizer.recordDefinition placement node) := by
  intro progress node' after some_frame done
  obtain ⟨-, same⟩ | ⟨_, name, _, _, definition, -, -, same, -⟩ :=
    record_definition_cases optimizer placement node progress
  all_goals
    rw [same] at done
    cases done
  · exact .refl 1 _
  · exact .define name definition placement _

theorem record_nested_fades (node : Tree) :
    Pass.Fades 0 (optimizer.recordDefinition .nested node) := by
  intro progress node' after some_frame done
  obtain ⟨-, same⟩ | ⟨_, name, _, _, definition, -, -, same, -⟩ :=
    record_definition_cases optimizer .nested node progress
  all_goals
    rw [same] at done
    cases done
  · exact .refl 0 _
  · exact .hide name _

theorem visit_statements_fades
    (fades : ∀ node ∈ nodes, node.Everywhere fun tree =>
      Pass.Fades 0 (optimizer.visit revisit tree)) :
    Pass.Fades 1 (optimizer.visitStatements revisit nodes) := by
  induction nodes with
  | nil =>
      rw [Optimizer.visitStatements]
      exact .pure []
  | cons node rest induction =>
      rw [List.forall_mem_cons] at fades
      have others (node' : Tree) : Pass.Fades 1 (optimizer.visitStatements revisit rest >>=
          fun rest' => pure (splice node' ++ rest')) :=
        (induction fades.2).bind fun rest' => .pure _
      by_cases defines : node.specialForm? = some .procedure
      · rcases node with ⟨payload, position, optimized, facts, children⟩
        cases payload with
        | literal value => cases defines
        | «variable» name => cases defines
        | call name =>
            cases optimized with
            | true =>
                simp only [Optimizer.visitStatements, defines, if_true]
                exact (record_definition_fades .direct _).bind others
            | false =>
                rw [visit_definition_statement_eq _ _ defines]
                have parts := visit_definition_fades fun child member =>
                  (fades.1.inside child member).here
                exact (check_arity_fades _ _ _).inside.bind fun _ => parts.inside.bind
                  fun parts' => (record_definition_fades .direct _).bind others
      · rw [visit_statement_eq _ _ defines]
        exact fades.1.here.inside.bind others

theorem visit_form_fades {name : String} {position : Position} {facts : Facts}
    {children : List Tree} (form : SpecialForm)
    (fades : ∀ child ∈ children, child.Everywhere fun tree =>
      Pass.Fades 0 (optimizer.visit revisit tree)) :
    Pass.Fades 0 (visitForm optimizer revisit ⟨.call name, position, false, facts, children⟩
      form) := by
  have below := fun child member => (fades child member).here
  cases form with
  | autoConcat | sequence =>
      exact ((visit_statements_fades fades).with_frame .sequence).bind fun statements => .pure _
  | conditional | choice =>
      exact (visit_branches_fades children below).bind fun branches => .pure _
  | procedure =>
      exact (visit_definition_fades below).bind fun parts => record_nested_fades _
  | assignment =>
      have checked : Pass.Fades 0 (checkAssignment children) := by
        intro progress _ after _ done
        cases children with
        | nil =>
            cases done
            exact .refl 0 _
        | cons first rest =>
            rw [(check_assignment_ok done).2]
            exact .refl 0 _
      exact checked.bind fun _ => (visit_all_fades below).bind fun children' => .pure _
  | closure =>
      exact ((visit_all_fades below).inside.with_frame .closure).bind fun children' => .pure _
  | returning | execution => exact (visit_all_fades below).bind fun children' => .pure _

theorem visit_call_fades (name : String) (call : Tree)
    (again : ∀ self tree, revisit = some self → Pass.Fades 0 (self tree)) :
    Pass.Fades 0 (visitCall optimizer revisit name call) := by
  intro progress node' after some_frame done
  unfold visitCall at done
  split at done
  · obtain ⟨template, self, replacement, -, -, same, -, visited⟩ | ⟨rfl, -⟩ :=
      inline_call_ok _ _ done
    · exact again self replacement same progress node' after some_frame visited
    · exact .refl 0 _
  · obtain ⟨builtin, -, -, ⟨-, rfl⟩ | ⟨value, store', -, rfl, -⟩⟩ := fold_call_ok _ done
    · exact .refl 0 _
    · exact .refl 0 _

/-- A visit only hides names in the frames that are there before it. -/
theorem visit_fades (again : ∀ self tree, revisit = some self → Pass.Fades 0 (self tree))
    (tree : Tree) : tree.Everywhere fun node => Pass.Fades 0 (optimizer.visit revisit node) := by
  apply Tree.Everywhere.intro
  intro payload position optimized facts children induction
  have leaf : Tree.functionName? ⟨payload, position, optimized, facts, children⟩ = none →
      optimized = false →
      Pass.Fades 0 (optimizer.visit revisit ⟨payload, position, optimized, facts, children⟩) := by
    intro leaf unsettled
    refine .still fun progress node' after done => ?_
    rw [visit_leaf _ _ unsettled leaf] at done
    cases done
    rfl
  cases optimized with
  | true =>
      intro progress node' after some_frame done
      rw [visit_settled _ _ rfl] at done
      cases done
      exact .hide_all _ _
  | false =>
      cases payload with
      | literal value => exact leaf rfl rfl
      | «variable» name => exact leaf rfl rfl
      | call name =>
          cases special : SpecialForm.ofName? name with
          | some form =>
              rw [visit_form_eq _ _ special]
              exact (check_arity_fades _ _ _).bind fun _ =>
                (visit_form_fades form induction).bind fun out => .pure _
          | none =>
              rw [visit_call_eq _ _ special]
              have visited := visit_all_fades fun child member => (induction child member).here
              exact visited.bind fun children' =>
                (visit_call_fades name _ again).bind fun out => .pure _

theorem pass_fades (depth : Nat) (tree : Tree) : Pass.Fades 0 (optimizer.pass depth tree) := by
  induction depth generalizing tree with
  | zero => exact (visit_fades (fun _ _ none => by cases none) tree).here
  | succ depth induction =>
      refine (visit_fades (fun self other same => ?_) tree).here
      cases same
      exact induction other

end Visits

/-- No template of a name is found but those that are allowed, neither now nor after sequences have
been left. -/
def Scopes.Shadows (allowed : Template → Prop) (name : String) : Scopes → Prop
  | [] => True
  | frame :: outer =>
      (∀ template, frame.definitions.find? name = some (.inlinable template) → allowed template) ∧
        (frame.kind = .sequence ∨
            frame.kind ≠ .procedure ∧ frame.definitions.find? name = none →
          Shadows allowed name outer)

namespace Scopes.Shadows

variable {allowed allowed' : Template → Prop} {name : String} {scopes after : Scopes}

theorem found (shadows : scopes.Shadows allowed name) {template : Template}
    (found : scopes.find? name = some (.inlinable template)) : allowed template := by
  induction scopes with
  | nil => cases found
  | cons frame outer induction =>
      rw [Scopes.find?] at found
      cases here : frame.definitions.find? name with
      | some definition =>
          rw [here] at found
          cases found
          exact shadows.1 template here
      | none =>
          by_cases procedure : frame.kind = .procedure
          · simp [here, procedure] at found
          · simp only [here, if_neg procedure] at found
            exact induction (shadows.2 (Or.inr ⟨procedure, here⟩)) found

theorem mono (shadows : scopes.Shadows allowed name)
    (more : ∀ template, allowed template → allowed' template) :
    scopes.Shadows allowed' name := by
  induction scopes with
  | nil => trivial
  | cons frame outer induction =>
      exact ⟨fun template here => more template (shadows.1 template here),
        fun through => induction (shadows.2 through)⟩

theorem fades (shadows : scopes.Shadows allowed name) (fades : scopes.Fades 0 after) :
    after.Shadows allowed name := by
  obtain ⟨frames, -⟩ := fades
  rw [List.drop_zero, List.drop_zero] at frames
  induction frames with
  | nil => trivial
  | @cons frame frame' outer outer' head tail induction =>
      refine ⟨fun template here => ?_, fun through => induction (shadows.2 ?_)⟩
      · obtain same | hidden := head.names name
        · exact shadows.1 template (same.symm.trans here)
        · cases hidden.symm.trans here
      · rw [head.kind] at through
        refine through.imp_right fun ⟨other, missing⟩ => ⟨other, ?_⟩
        obtain same | hidden := head.names name
        · exact same.symm.trans missing
        · cases hidden.symm.trans missing

theorem hide (allowed : Template → Prop) (name : String) (scopes : Scopes) :
    (scopes.hide name).Shadows allowed name := by
  induction scopes with
  | nil => trivial
  | cons frame outer induction =>
      have recorded := find_record frame name name .hidden
      rw [if_pos rfl] at recorded
      refine ⟨fun template here => ?_, fun through => ?_⟩
      · cases recorded.symm.trans here
      · obtain sequence | ⟨-, missing⟩ := through
        · have kind : frame.kind = .sequence := sequence
          rw [if_pos kind]
          exact induction
        · cases recorded.symm.trans missing

theorem hide_all {names : List String} (member : name ∈ names) (scopes : Scopes) :
    (hideAll names scopes).Shadows allowed name := by
  induction names generalizing scopes with
  | nil => cases member
  | cons first names induction =>
      rw [hide_all_cons]
      obtain rfl | later := List.mem_cons.mp member
      · exact (hide allowed name scopes).fades (.hide_all names _)
      · exact induction later _

/-- A direct definition of the name itself hides it outside of its sequence. -/
theorem define_same {definition : Definition}
    (new : ∀ template, definition = .inlinable template → allowed template)
    (placement : Placement) (scopes : Scopes) :
    (scopes.define name definition placement).Shadows allowed name := by
  cases placement with
  | nested => exact hide allowed name scopes
  | direct =>
      cases scopes with
      | nil => trivial
      | cons frame outer =>
          have recorded := find_record frame name name definition
          rw [if_pos rfl] at recorded
          refine ⟨fun template here => new template ?_, fun _ => hide allowed name outer⟩
          exact Option.some.inj (recorded.symm.trans here)

theorem define_other {other : String} (differs : name ≠ other) (definition : Definition)
    (placement : Placement) (shadows : scopes.Shadows allowed name) :
    (scopes.define other definition placement).Shadows allowed name := by
  cases placement with
  | nested => exact shadows.fades (.hide other scopes)
  | direct =>
      cases scopes with
      | nil => trivial
      | cons frame outer =>
          have recorded := find_record frame other name definition
          rw [if_neg differs] at recorded
          refine ⟨fun template here => shadows.1 template (recorded.symm.trans here),
            fun through => ?_⟩
          rw [recorded] at through
          exact (shadows.2 through).fades (.hide other outer)

theorem push (shadows : scopes.Shadows allowed name) (kind : FrameKind) :
    (scopes.push kind).Shadows allowed name :=
  ⟨nofun, fun _ => shadows⟩

theorem pop {frame : Frame} {outer : Scopes} (sequence : frame.kind = .sequence)
    (shadows : Scopes.Shadows allowed name (frame :: outer)) :
    (Scopes.pop (frame :: outer)).Shadows allowed name := by
  cases outer with
  | nil => exact shadows
  | cons next rest => exact shadows.2 (Or.inl sequence)

end Scopes.Shadows

namespace Optimizer

variable (optimizer : Optimizer)

def Offers (node : Tree) (name : String) (template : Template) : Prop :=
  ∃ nameNode params body, node.children = nameNode :: (params ++ [body]) ∧
    nameNode.procedureName? = some name ∧
    (Definition.analyze optimizer.registry name params body).1 = .inlinable template

/-- Where an optimizer is, and the templates that it has recorded since it passed a subtree. -/
structure Stage where
  progress : Progress
  since : String → Template → Prop

/-- A subtree is passed directly as a statement of a sequence, or anywhere else. -/
inductive Passes (revisit : Option (Tree → Pass Tree)) (node : Tree) :
    Placement → Progress → Stage → Prop where
  | statement {statements : List Tree} {progress after : Progress} :
      optimizer.visitStatements revisit [node] progress = .ok statements after →
      Passes revisit node .direct progress
        ⟨after, fun name template =>
          node.specialForm? = some .procedure ∧ optimizer.Offers node name template⟩
  | elsewhere {node' : Tree} {progress after : Progress} :
      optimizer.visit revisit node progress = .ok node' after →
      Passes revisit node .nested progress ⟨after, fun _ _ => False⟩

/-- What may come next in the environment of a subtree. Frames may be entered, but those that were
there before are left only if they are frames of sequences. -/
inductive Continues : Stage → Stage → Prop where
  | visit {depth : Nat} {tree tree' : Tree} {progress after : Progress}
      {since : String → Template → Prop} :
      optimizer.pass depth tree progress = .ok tree' after →
      Continues ⟨progress, since⟩ ⟨after, since⟩
  | body {depth : Nat} {tree tree' : Tree} {progress after : Progress}
      {since : String → Template → Prop} :
      Pass.withFrame .procedure (optimizer.pass depth tree) progress = .ok tree' after →
      Continues ⟨progress, since⟩ ⟨after, since⟩
  | record {placement : Placement} {node node' : Tree} {progress after : Progress}
      {since : String → Template → Prop} :
      optimizer.recordDefinition placement node progress = .ok node' after →
      Continues ⟨progress, since⟩
        ⟨after, fun name template => since name template ∨ optimizer.Offers node name template⟩
  | enter {progress : Progress} {since : String → Template → Prop} (kind : FrameKind) :
      Continues ⟨progress, since⟩
        ⟨{ progress with scopes := progress.scopes.push kind }, since⟩
  | leave {progress : Progress} {since : String → Template → Prop} {frame : Frame}
      {outer : Scopes} : progress.scopes = frame :: outer → frame.kind = .sequence →
      Continues ⟨progress, since⟩ ⟨{ progress with scopes := progress.scopes.pop }, since⟩

/-- There is a frame, and no template of the name is found but those that were recorded since. -/
structure Stage.Shadows (stage : Stage) (name : String) : Prop where
  some_frame : stage.progress.scopes ≠ []
  shadows : stage.progress.scopes.Shadows (stage.since name) name

variable {optimizer} {name : String}

theorem record_shadows {allowed : Template → Prop} {placement : Placement} {node node' : Tree}
    {progress after : Progress}
    (done : optimizer.recordDefinition placement node progress = .ok node' after)
    (kept : progress.scopes.Shadows allowed name ∨
      node.children.head?.bind Tree.procedureName? = some name) :
    after.scopes.Shadows (fun template => allowed template ∨ optimizer.Offers node name template)
      name := by
  obtain ⟨unnamed, same⟩ | ⟨nameNode, defined, parts, parts', definition, shape, named, same,
    analysis⟩ := record_definition_cases optimizer placement node progress
  all_goals
    rw [same] at done
    cases done
  · obtain shadows | named := kept
    · exact shadows.mono fun template => Or.inl
    · cases unnamed.symm.trans named
  · by_cases differs : name = defined
    · subst differs
      refine .define_same (fun template given => Or.inr ?_) placement _
      obtain ⟨-, -, rfl⟩ | ⟨params, body, rfl, analyzed, -⟩ := analysis
      · cases given
      · exact ⟨nameNode, params, body, shape, named, analyzed.symm.trans given⟩
    · obtain shadows | own := kept
      · exact (shadows.define_other differs definition placement).mono fun template => Or.inl
      · rw [shape, List.head?_cons, Option.bind_some, named] at own
        exact absurd (Option.some.inj own).symm differs

theorem Continues.shadows {stage stage' : Stage} (continues : optimizer.Continues stage stage')
    (shadows : stage.Shadows name) : stage'.Shadows name := by
  obtain ⟨some_frame, shadows⟩ := shadows
  cases continues with
  | visit visited =>
      have fades := pass_fades _ _ _ _ _ some_frame visited
      exact ⟨fades.some_frame some_frame, shadows.fades fades⟩
  | body visited =>
      have fades := (pass_fades _ _).inside.with_frame .procedure _ _ _ some_frame visited
      exact ⟨fades.some_frame some_frame, shadows.fades fades⟩
  | record recorded =>
      have fades := record_definition_fades _ _ _ _ _ some_frame recorded
      exact ⟨fades.some_frame some_frame, record_shadows recorded (Or.inl shadows)⟩
  | enter kind => exact ⟨List.cons_ne_nil _ _, shadows.push kind⟩
  | leave shape sequence =>
      refine ⟨Scopes.pop_ne_nil some_frame, ?_⟩
      dsimp only at shadows ⊢
      rw [shape] at shadows ⊢
      exact shadows.pop sequence

theorem walk_shadows {stage stage' : Stage}
    (walk : Relation.ReflTransGen optimizer.Continues stage stage')
    (shadows : stage.Shadows name) : stage'.Shadows name := by
  induction walk with
  | refl => exact shadows
  | tail _ step induction => exact step.shadows induction

/-- A settled subtree hides what it can define, and offers at most its own name anew. -/
theorem Passes.shadows {revisit : Option (Tree → Pass Tree)} {node : Tree}
    {placement : Placement} {progress : Progress} {stage : Stage}
    (passes : optimizer.Passes revisit node placement progress stage)
    (settled : node.optimized = true) (some_frame : progress.scopes ≠ [])
    (bare : placement = .direct → node.specialForm? = some .procedure →
      Tree.exposedParts node.children = [])
    (exposes : name ∈ node.exposed) : stage.Shadows name := by
  have hidden : ∀ {allowed : Template → Prop},
      (progress.scopes.shadow node).Shadows allowed name :=
    .hide_all (Tree.exposed_definitions exposes) progress.scopes
  have some_frame' := Scopes.hide_all_ne_nil node.definitions some_frame
  cases passes with
  | elsewhere visited =>
      rw [visit_settled _ _ settled] at visited
      cases visited
      exact ⟨some_frame', hidden⟩
  | statement visited =>
      by_cases defines : node.specialForm? = some .procedure
      · rcases node with ⟨payload, position, optimized, facts, children⟩
        obtain rfl : optimized = true := settled
        cases payload with
        | literal value => cases defines
        | «variable» read => cases defines
        | call called =>
            have special : SpecialForm.ofName? called = some .procedure := defines
            have nothing : Tree.exposedParts children = [] := bare rfl defines
            rw [Tree.exposed, special] at exposes
            simp only [nothing, List.append_nil, Option.mem_toList] at exposes
            simp only [Optimizer.visitStatements, defines, if_true] at visited
            obtain ⟨node', between, recorded, continued⟩ := bind_eq_ok visited
            cases continued
            have fades := record_definition_fades _ _ _ _ _ some_frame recorded
            have named : progress.scopes.Shadows (fun _ => False) name ∨
                _ = some name := Or.inr exposes
            have kept := record_shadows recorded named
            exact ⟨fades.some_frame some_frame,
              kept.mono fun template offered => ⟨defines, offered.resolve_left id⟩⟩
      · obtain ⟨node', between, rest', first, last, -⟩ := visit_statement _ _ defines visited
        rw [visit_settled _ _ settled] at first
        cases first
        cases last
        exact ⟨some_frame', hidden⟩

end Optimizer

/-- Once a settled subtree has been passed, no name that evaluating it can define in its
environment is looked up as a template that was recorded before, however the optimizer continues
there. Of a settled definition among the statements of a sequence this needs that its parameters
make no definitions. -/
theorem settled_definitions_hidden {optimizer : Optimizer} {revisit : Option (Tree → Pass Tree)}
    {node : Tree} {name : String} {placement : Placement} {progress : Progress}
    {passed later : Optimizer.Stage} {template : Template} (settled : node.optimized = true)
    (defines : node.CanDefine name) (some_frame : progress.scopes ≠ [])
    (passes : optimizer.Passes revisit node placement progress passed)
    (bare : placement = .direct → node.specialForm? = some .procedure →
      Tree.exposedParts node.children = [])
    (walk : Relation.ReflTransGen optimizer.Continues passed later)
    (found : later.progress.scopes.find? name = some (.inlinable template)) :
    later.since name template := by
  have hidden := passes.shadows settled some_frame bare defines.exposed
  exact (Optimizer.walk_shadows walk hidden).shadows.found found

theorem settled_definitions_hidden_of_number :
    ∃ statements progress passed template,
      Optimizer.visitStatements ⟨Prelude.registry, {}⟩ none [numberDefinition 1]
        ⟨Scopes.initial.push .sequence, {}⟩ = .ok statements progress ∧
      Optimizer.Passes ⟨Prelude.registry, {}⟩ none ((numberDefinition 2).settle true) .direct
        progress passed ∧
      passed.progress.scopes.find? "_p" = some (.inlinable template) ∧
      passed.since "_p" template := by
  let optimizer : Optimizer := ⟨Prelude.registry, {}⟩
  let node := (numberDefinition 2).settle true
  obtain ⟨statements, progress, statements', after, template, first, some_frame, second, found⟩ :
      ∃ statements progress statements' after template,
        optimizer.visitStatements none [numberDefinition 1] ⟨Scopes.initial.push .sequence, {}⟩ =
          .ok statements progress ∧ progress.scopes ≠ [] ∧
        optimizer.visitStatements none [node] progress = .ok statements' after ∧
        after.scopes.find? "_p" = some (.inlinable template) :=
    ⟨_, _, _, _, _, rfl, List.cons_ne_nil _ _, rfl, rfl⟩
  have defines : node.CanDefine "_p" :=
    ⟨.standard, fun _ => pure .void, {},
      Option.some_ne_none (Procedure.mk "_p" [] (bodyOf node.children) .unknown)⟩
  have passes := Optimizer.Passes.statement second
  have bare : Placement.direct = .direct → node.specialForm? = some .procedure →
      Tree.exposedParts node.children = [] := fun _ _ => rfl
  exact ⟨statements, progress, _, template, first, passes, found,
    settled_definitions_hidden rfl defines some_frame passes bare .refl found⟩

def definitionInDefault : Tree :=
  .call SpecialForm.procedure.name
    [.literal (.string "_q") .unknown,
      .call SpecialForm.assignment.name
        [.node (.variable "@x") [] .unknown, numberDefinition 2] .unknown,
      .call SpecialForm.returning.name [.literal (.int 0) .unknown] .unknown] .unknown

/-- Passed as a statement, the settled definition of `_q` hides nothing but `_q`. The definition
of `_p` in its default takes place when it is evaluated, but the older template is still found. -/
theorem settled_default_leaves_template :
    ∃ node statements progress passed template,
      Optimizer.optimize ⟨Prelude.registry, {}⟩ definitionInDefault {} = .ok node {} ∧
      node.optimized = true ∧ node.CanDefine "_p" ∧
      Optimizer.visitStatements ⟨Prelude.registry, {}⟩ none [numberDefinition 1]
        ⟨Scopes.initial.push .sequence, {}⟩ = .ok statements progress ∧
      progress.scopes.find? "_p" = some (.inlinable template) ∧
      Optimizer.Passes ⟨Prelude.registry, {}⟩ none node .direct progress passed ∧
      passed.progress.scopes.find? "_p" = some (.inlinable template) ∧
      ¬passed.since "_p" template := by
  refine ⟨_, _, _, _, _, rfl, rfl, ⟨.standard, fun _ => pure .void, {}, ?_⟩, rfl, rfl,
    .statement rfl, rfl, ?_⟩
  · exact Option.some_ne_none (Procedure.mk "_p" [] _ .unknown)
  · rintro ⟨-, nameNode, params, body, shape, named, -⟩
    obtain ⟨rfl, -⟩ := List.cons.inj shape
    exact absurd named (by decide)

end TreeScript
