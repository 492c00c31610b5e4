import TreeScript.Proofs.Knowledge
/-!
# Shapes of trees before and after a visit

A visit goes into trees that a script is made of and into the expressions that replace calls, whose
arguments have been visited before. The shape of what comes out of a visit is what makes such an
expression fit to be visited.
-/

namespace TreeScript

set_option autoImplicit false

namespace Tree

structure Finished (rules : Rules) (tree : Tree) : Prop where
  bare : tree.BareLeaf
  full : tree.specialForm?.any SpecialForm.isSequence = true → tree.children ≠ []
  plain : rules.inlining = true → ∀ value, tree.payload = .literal value →
    value.holdsResource = false

def parameterNames (params : List Tree) : List String :=
  params.filterMap fun param => param.parameter?.map Prod.fst

/-- A node that a visit accepts. A settled node has been visited and is no definition. The
parameters of a procedure that may be known are apart from the array of all arguments. What the
parameters of a closure define is forgotten after it, so that they must define nothing while calls
are replaced. -/
structure Ready (rules : Rules) (tree : Tree) : Prop where
  bare : tree.BareLeaf
  plain : rules.inlining = true → ∀ value, tree.payload = .literal value →
    value.holdsResource = false
  settled : tree.optimized = true →
    tree.Everywhere (Finished rules) ∧ tree.specialForm? ≠ some .procedure
  unhidden : rules.inlining = true → tree.specialForm? = some .procedure →
    argumentsVariable ∉ parameterNames tree.children.tail.dropLast
  distinct : rules.distinct = true → tree.specialForm? = some .procedure →
    (parameterNames tree.children.tail.dropLast).Nodup
  closures : tree.specialForm? = some .closure → rules.closures = true
  written : tree.specialForm? = some .closure → rules.loose = false → rules.inlining = false ∧
    ∀ param ∈ tree.children.dropLast, param.parameter?.isSome = true
  enclosed : tree.specialForm? = some .closure → rules.inlining = true →
    exposedParts tree.children = []

theorem plain_iff (node : Tree) :
    (∀ value, node.payload = .literal value → value.holdsResource = false) ↔
      node.value?.any Value.holdsResource = false := by
  rw [value?]
  cases node.payload with
  | literal value => simp [Payload.value?]
  | _ => simp [Payload.value?]

section Shapes

variable {rules : Rules}

theorem Finished.leaf {payload : Payload} (leaf : payload.functionName? = none)
    (plain : rules.inlining = true → ∀ value, payload = .literal value →
      value.holdsResource = false)
    (position : Position) (optimized : Bool) (facts : Facts) :
    Finished rules ⟨payload, position, optimized, facts, []⟩ := by
  refine ⟨fun _ => rfl, fun sequence => ?_, plain⟩
  have none : specialForm? ⟨payload, position, optimized, facts, []⟩ = none := by
    simp [specialForm?, functionName?, leaf]
  rw [none] at sequence
  cases sequence

/-- Only the payload of a node matters, and whether it has children. -/
theorem Finished.change {payload : Payload} {position position' : Position}
    {optimized optimized' : Bool} {facts facts' : Facts} {children children' : List Tree}
    (finished : Finished rules ⟨payload, position, optimized, facts, children⟩)
    (empty : children' = [] ↔ children = []) :
    Finished rules ⟨payload, position', optimized', facts', children'⟩ :=
  ⟨fun leaf => empty.mpr (finished.bare leaf),
    fun sequence none => finished.full sequence (empty.mp none), finished.plain⟩

theorem finished_notes {tree : Tree} (finished : tree.Everywhere (Finished rules))
    (position : Position) (optimized : Bool) (facts : Facts) :
    Everywhere (Finished rules) ⟨tree.payload, position, optimized, facts, tree.children⟩ := by
  rcases tree with ⟨payload, position', optimized', facts', children⟩
  exact .node (finished.here.change Iff.rfl) finished.inside

theorem finished_fresh_copy {tree : Tree} (finished : tree.Everywhere (Finished rules)) :
    tree.freshCopy.Everywhere (Finished rules) := by
  induction tree using Tree.induction with
  | node payload position optimized facts children induction =>
      rw [freshCopy, freshCopies_eq_map]
      exact .node (finished.here.change List.map_eq_nil_iff) <| List.forall_mem_map.mpr
        fun child member => induction child member (finished.inside child member)

theorem finished_copy {tree : Tree} (finished : tree.Everywhere (Finished rules)) :
    tree.copy.Everywhere (Finished rules) := by
  induction tree using Tree.induction with
  | node payload position optimized facts children induction =>
      rw [copy, copies_eq_map]
      exact .node (finished.here.change List.map_eq_nil_iff) <| List.forall_mem_map.mpr
        fun child member => induction child member (finished.inside child member)

theorem finished_substitute {bindings : Bindings Tree} {tree : Tree}
    (finished : tree.Everywhere (Finished rules))
    (bound : ∀ name found, bindings.find? name = some found →
      found.Everywhere (Finished rules)) :
    (tree.substitute bindings).Everywhere (Finished rules) := by
  induction tree using Tree.induction with
  | node payload position optimized facts children induction =>
      rw [substitute, substitute_all_eq_map]
      split
      · rename_i found replaced
        rcases Option.bind_eq_some_iff.mp replaced with ⟨name, -, located⟩
        exact finished_copy (bound name found located)
      · exact .node (finished.here.change List.map_eq_nil_iff) <| List.forall_mem_map.mpr
          fun child member => induction child member (finished.inside child member)

theorem ready_of_quiet {registry : Registry} {tree : Tree} (quiet : tree.Quiet registry)
    (finished : tree.Everywhere (Finished rules)) : tree.Everywhere (Ready rules) := by
  induction quiet with
  | literal | «variable» =>
      rename_i children
      have none : children = [] := finished.here.bare rfl
      subst none
      refine .node ⟨finished.here.bare, finished.here.plain, fun _ => ⟨finished, nofun⟩,
        fun _ => nofun, fun _ => nofun, nofun, nofun, nofun⟩ (by simp)
  | @form name kind position optimized facts children special allowed below induction =>
      have named : specialForm? ⟨.call name, position, optimized, facts, children⟩ = some kind :=
        special
      have differs : ∀ other : SpecialForm, other.isTransparent = false →
          specialForm? ⟨.call name, position, optimized, facts, children⟩ ≠ some other := by
        intro other busy same
        rw [named] at same
        cases same
        rw [busy] at allowed
        cases allowed
      refine .node ⟨finished.here.bare, finished.here.plain,
        fun _ => ⟨finished, differs .procedure rfl⟩,
        fun _ same => absurd same (differs .procedure rfl),
        fun _ same => absurd same (differs .procedure rfl),
        fun same => absurd same (differs .closure rfl),
        fun same => absurd same (differs .closure rfl),
        fun same => absurd same (differs .closure rfl)⟩ fun child member => ?_
      exact induction child member (finished.inside child member)
  | @function name builtin position optimized facts children plain named found isPure below
      induction =>
      have unnamed : specialForm? ⟨.call name, position, optimized, facts, children⟩ = none := plain
      have differs : ∀ other : SpecialForm,
          specialForm? ⟨.call name, position, optimized, facts, children⟩ ≠ some other := by
        intro other same
        rw [unnamed] at same
        cases same
      refine .node ⟨finished.here.bare, finished.here.plain,
        fun _ => ⟨finished, differs .procedure⟩,
        fun _ same => absurd same (differs .procedure),
        fun _ same => absurd same (differs .procedure),
        fun same => absurd same (differs .closure),
        fun same => absurd same (differs .closure),
        fun same => absurd same (differs .closure)⟩ fun child member => ?_
      exact induction child member (finished.inside child member)

theorem slot_names {params : List Tree} {slots : List Slot}
    (analyzed : params.mapM Slot.ofNode? = some slots) :
    slots.map Slot.name = parameterNames params := by
  induction params generalizing slots with
  | nil =>
      simp only [List.mapM_nil, pure, Option.some.injEq] at analyzed
      subst analyzed
      rfl
  | cons param rest induction =>
      simp only [List.mapM_cons, Option.bind_eq_bind, Option.bind_eq_some_iff] at analyzed
      rcases analyzed with ⟨slot, found, slots', others, built⟩
      simp only [pure, Option.some.injEq] at built
      subst built
      have named : param.parameter?.map Prod.fst = some slot.name := by
        unfold Slot.ofNode? at found
        split at found
        · rename_i shape
          cases found
          rw [shape]
          rfl
        · rename_i shape
          split at found
          · cases found
            rw [shape]
            rfl
          · cases found
        · cases found
      have later := induction others
      simp only [parameterNames, List.filterMap_cons, named, List.map_cons] at later ⊢
      rw [later]

theorem slot_default_child {node default : Tree} {slot : Slot}
    (analyzed : Slot.ofNode? node = some slot) (given : slot.default = some default) :
    default ∈ node.children := by
  unfold Slot.ofNode? at analyzed
  split at analyzed
  · cases analyzed
    cases given
  · rename_i name found shape
    split at analyzed
    · cases analyzed
      cases given
      rcases parameter_eq_some shape with ⟨_, _, _, _, _, none⟩ |
        ⟨position, optimized, facts, target, expression, rest, rfl, -, same⟩
      · cases none
      · cases same
        simp
    · cases analyzed
  · cases analyzed

end Shapes

end Tree

namespace Template

structure Sound (registry : Registry) (rules : Rules) (template : Template) : Prop where
  trusted : template.Trusted rules
  quiet : template.body.Quiet registry
  finished : template.body.Everywhere (Tree.Finished rules)
  defaults : ∀ slot ∈ template.slots, ∀ default, slot.default = some default →
    default.Quiet registry ∧ default.Everywhere (Tree.Finished rules)

variable {registry : Registry} {rules : Rules} {template : Template}

theorem Describes.sound {params : List Tree} {expression : Tree}
    (described : template.Describes registry params expression)
    (apart : registry.KeepsNamesApart) (inlining : rules.inlining = true)
    (finishedParams : ∀ param ∈ params, param.Everywhere (Tree.Finished rules))
    (finished : expression.Everywhere (Tree.Finished rules))
    (unhidden : argumentsVariable ∉ Tree.parameterNames params)
    (distinct : rules.distinct = true → (Tree.parameterNames params).Nodup) :
    template.Sound registry rules := by
  have names := Tree.slot_names described.slots
  have finishedBody : template.body.Everywhere (Tree.Finished rules) := by
    rw [described.body]
    exact Tree.finished_fresh_copy finished
  have defaults : ∀ slot ∈ template.slots, ∀ default, slot.default = some default →
      (∃ value, default.payload = .literal value) ∧
        default.Everywhere (Tree.Finished rules) := by
    intro slot member default given
    rcases slot_of_node described.slots member with ⟨node, within, analyzed⟩
    exact ⟨slot_default_literal analyzed given,
      (finishedParams node within).inside default (Tree.slot_default_child analyzed given)⟩
  refine ⟨⟨?_, ?_, finishedBody.mono fun node shape => shape.bare, ?_⟩, ?_, finishedBody, ?_⟩
  · intro member
    apply unhidden
    rcases described.closed _ ((described.reads _).mp member) with ⟨slot, within, same⟩
    rw [← names, ← same]
    exact List.mem_map_of_mem within
  · intro slot member default value given shown
    rcases defaults slot member default given with ⟨⟨value', literal⟩, shape⟩
    apply shape.here.plain inlining
    rw [literal]
    rw [Tree.value?, literal] at shown
    cases shown
    rfl
  · intro on
    rw [names]
    exact distinct on
  · rw [described.body]
    exact (Tree.quiet_of_side_effect_free apart expression described.quiet).fresh_copy
  · intro slot member default given
    rcases defaults slot member default given with ⟨⟨value, literal⟩, shape⟩
    refine ⟨?_, shape⟩
    rcases default with ⟨payload, position, optimized, facts, children⟩
    subst literal
    exact .literal value _ _ _ _

/-- The expression that replaces a call has no side effects, and a visit accepts it. -/
theorem Sound.replacement_ready (sound : template.Sound registry rules)
    (apart : registry.KeepsNamesApart) {arguments : List Tree} {position : Position}
    {replacement : Tree}
    (finished : ∀ argument ∈ arguments, argument.Everywhere (Tree.Finished rules))
    (instantiated : template.instantiate? registry arguments position = some replacement) :
    replacement.Quiet registry ∧ replacement.Everywhere (Tree.Ready rules) := by
  obtain ⟨accepted, bindings, bound, rfl⟩ := instantiate_eq_some instantiated
  have holds : ∀ name tree, bindings.find? name = some tree →
      tree.Quiet registry ∧ tree.Everywhere (Tree.Finished rules) :=
    accepted_bindings_hold accepted bound
      (fun argument member harmless =>
        ⟨Tree.quiet_of_side_effect_free apart argument harmless, finished argument member⟩)
      sound.defaults
  have quiet := sound.quiet.fresh_copy.substitute fun name tree found => (holds name tree found).1
  have shape := Tree.finished_substitute (Tree.finished_fresh_copy sound.finished)
    fun name tree found => (holds name tree found).2
  exact ⟨quiet.place_at position,
    Tree.ready_of_quiet (quiet.place_at position) (Tree.finished_notes shape _ _ _)⟩

end Template

end TreeScript
