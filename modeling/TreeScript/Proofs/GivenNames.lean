import TreeScript.Proofs.NormalForm
import TreeScript.Proofs.Visiting
/-!
# The names that definitions give

Which procedures a tree may define is a matter of the special form and of the name that stands
first in it. Notes, copies and normal forms keep these names. An expression that replaces a call
has none but those below its arguments and below the defaults of its template: unless a pure
function goes by the name of the special form, the form is absent from the bodies of templates, so
that no argument comes to stand in the place of a name.

A default is a literal. Children of a literal are never looked at when a template is made, and they
may be definitions.
-/

namespace TreeScript

set_option autoImplicit false

namespace Tree

def GivesOnly (named : String → Prop) (tree : Tree) : Prop :=
  ∀ name ∈ tree.definitions, named name

section GivesOnly

variable {named : String → Prop} {tree : Tree}

theorem gives_only_iff : tree.GivesOnly named ↔
    (∀ name, tree.definition? = some name → named name) ∧
      ∀ child ∈ tree.children, child.GivesOnly named := by
  rcases tree with ⟨payload, position, optimized, facts, children⟩
  simp only [GivesOnly, definitions, List.mem_append, Option.mem_toList, mem_child_definitions]
  constructor
  · exact fun gives => ⟨fun name own => gives name (Or.inl own),
      fun child member name below => gives name (Or.inr ⟨child, member, below⟩)⟩
  · rintro ⟨own, inside⟩ name (here | ⟨child, member, below⟩)
    · exact own name here
    · exact inside child member name below

theorem GivesOnly.inside (gives : tree.GivesOnly named) :
    ∀ child ∈ tree.children, child.GivesOnly named :=
  (gives_only_iff.mp gives).2

theorem gives_only_of_children (other : tree.specialForm? ≠ some .procedure)
    (inside : ∀ child ∈ tree.children, child.GivesOnly named) : tree.GivesOnly named := by
  refine gives_only_iff.mpr ⟨fun name own => ?_, inside⟩
  rw [definition?, if_neg other] at own
  cases own

theorem literal_gives_only (value : Value) (position : Position) :
    (literal value position).GivesOnly named :=
  gives_only_of_children nofun nofun

theorem GivesOnly.notes (gives : tree.GivesOnly named) (position : Position) (optimized : Bool)
    (facts : Facts) :
    GivesOnly named ⟨tree.payload, position, optimized, facts, tree.children⟩ := by
  obtain ⟨own, inside⟩ := gives_only_iff.mp gives
  exact gives_only_iff.mpr ⟨own, inside⟩

/-- Only the name of a definition matters for what it gives, and what its parts give. -/
theorem GivesOnly.renew {payload : Payload} {position position' : Position}
    {optimized optimized' : Bool} {facts facts' : Facts} {nameNode nameNode' : Tree}
    {parts parts' : List Tree}
    (gives : GivesOnly named ⟨payload, position, optimized, facts, nameNode :: parts⟩)
    (same : nameNode'.procedureName? = nameNode.procedureName?)
    (first : nameNode'.GivesOnly named) (others : ∀ part ∈ parts', part.GivesOnly named) :
    GivesOnly named ⟨payload, position', optimized', facts', nameNode' :: parts'⟩ := by
  obtain ⟨own, -⟩ := gives_only_iff.mp gives
  refine gives_only_iff.mpr ⟨?_, List.forall_mem_cons.mpr ⟨first, others⟩⟩
  unfold definition? at own ⊢
  rw [List.head?_cons, Option.bind_some] at own ⊢
  rw [same]
  exact own

theorem GivesOnly.remember (kind : FactKind) (gives : tree.GivesOnly named) :
    (tree.remember kind).GivesOnly named := by
  unfold Tree.remember ask
  split
  · exact gives
  · exact gives.notes _ _ _

theorem procedure_name_copy (tree : Tree) : tree.copy.procedureName? = tree.procedureName? := by
  rw [procedureName?, procedureName?, copy_payload, copy_children, special_form_copy,
    List.isEmpty_map]

theorem definition_copy (tree : Tree) : tree.copy.definition? = tree.definition? := by
  rw [definition?, definition?, special_form_copy, copy_children, List.head?_map]
  cases tree.children.head? with
  | none => rfl
  | some nameNode => simp only [Option.map_some, Option.bind_some, procedure_name_copy]

theorem GivesOnly.copy (gives : tree.GivesOnly named) : tree.copy.GivesOnly named := by
  induction tree using Tree.induction with
  | node payload position optimized facts children induction =>
      obtain ⟨own, inside⟩ := gives_only_iff.mp gives
      rw [gives_only_iff, definition_copy, copy_children]
      exact ⟨own, List.forall_mem_map.mpr fun child member =>
        induction child member (inside child member)⟩

end GivesOnly

/-- Where the special form is absent, definitions come only with what is put in the place of
variables. -/
theorem GivesOnly.substitute {named : String → Prop} {bindings : Bindings Tree} {tree : Tree}
    (absent : SpecialForm.procedure.name ∉ tree.functionNames)
    (bound : ∀ name found, bindings.find? name = some found → found.GivesOnly named) :
    (tree.substitute bindings).GivesOnly named := by
  induction tree using Tree.induction with
  | node payload position optimized facts children induction =>
      rw [Tree.substitute, substitute_all_eq_map]
      split
      · rename_i found replaced
        obtain ⟨name, -, located⟩ := Option.bind_eq_some_iff.mp replaced
        exact (bound name found located).copy
      · apply gives_only_of_children
        · intro special
          exact absent (mem_names.mpr ⟨payload, List.mem_cons_self,
            congrArg Payload.functionName? (payload_of_specialForm special)⟩)
        · refine List.forall_mem_map.mpr fun child member => induction child member ?_
          exact fun below => absent (names_child member below)

end Tree

structure Template.GivesOnly (named : String → Prop) (template : Template) : Prop where
  body : SpecialForm.procedure.name ∉ template.body.functionNames
  defaults : ∀ slot ∈ template.slots, ∀ default, slot.default = some default →
    default.GivesOnly named

section Templates

variable {named : String → Prop} {registry : Registry} {name : String} {params : List Tree}
  {body : Tree} {template : Template}

theorem Tree.no_form_of_side_effect_free {tree : Tree}
    (absent : registry.find? SpecialForm.procedure.name = none)
    (free : tree.isSideEffectFree registry = true) :
    SpecialForm.procedure.name ∉ tree.functionNames := by
  intro mentioned
  have allowed := List.all_eq_true.mp free _ mentioned
  rw [Registry.isPure, absent, SpecialForm.ofName?_name] at allowed
  cases allowed

theorem analyzed_without_form (absent : registry.find? SpecialForm.procedure.name = none)
    (analyzed : (Definition.analyze registry name params body).1 = .inlinable template) :
    SpecialForm.procedure.name ∉ template.body.functionNames := by
  obtain ⟨expression, -, described⟩ := analyze_inlinable analyzed
  rw [described.body, Tree.functionNames, Tree.names, Tree.payloads_fresh_copy]
  exact Tree.no_form_of_side_effect_free absent described.quiet

theorem analyzed_gives_only (absent : registry.find? SpecialForm.procedure.name = none)
    (inside : ∀ param ∈ params, param.GivesOnly named)
    (analyzed : (Definition.analyze registry name params body).1 = .inlinable template) :
    template.GivesOnly named := by
  refine ⟨analyzed_without_form absent analyzed, fun slot member default given => ?_⟩
  obtain ⟨_, -, described⟩ := analyze_inlinable analyzed
  obtain ⟨param, among, made⟩ := slot_of_node described.slots member
  exact (inside param among).inside default (Tree.slot_default_child made given)

theorem analyzed_body_gives_only (gives : body.GivesOnly named) :
    (Definition.analyze registry name params body).2.GivesOnly named := by
  apply analyzed_body_keeps gives fun kind tree => Tree.GivesOnly.remember kind
  intro expression returned
  obtain ⟨called, only⟩ := Tree.returned_eq_some returned
  constructor
  · apply gives.inside
    rw [only]
    exact List.mem_singleton_self expression
  · intro expression' facts gives'
    apply Tree.gives_only_of_children
    · rw [Tree.specialForm?, Tree.functionName?, called]
      decide
    · exact List.forall_mem_singleton.mpr gives'

theorem Template.GivesOnly.instantiate {arguments : List Tree} {position : Position}
    {replacement : Tree} (gives : template.GivesOnly named)
    (given : ∀ argument ∈ arguments, argument.GivesOnly named)
    (instantiated : template.instantiate? registry arguments position = some replacement) :
    replacement.GivesOnly named := by
  obtain ⟨accepted, bindings, bound, rfl⟩ := instantiate_eq_some instantiated
  have absent : SpecialForm.procedure.name ∉ template.body.freshCopy.functionNames := by
    rw [Tree.functionNames, Tree.names, Tree.payloads_fresh_copy]
    exact gives.body
  have substituted := Tree.GivesOnly.substitute absent fun name tree found =>
    accepted_bindings_hold accepted bound (fun argument member _ => given argument member)
      gives.defaults name tree found
  exact substituted.notes _ _ _

theorem inspect_gives_only (registry : Registry) {arguments : List Tree}
    (given : ∀ argument ∈ arguments, argument.GivesOnly named) :
    ∀ argument ∈ Template.inspect registry arguments, argument.GivesOnly named := by
  induction arguments with
  | nil => exact given
  | cons argument rest induction =>
      rw [List.forall_mem_cons] at given
      rw [Template.inspect, List.forall_mem_cons]
      refine ⟨given.1.remember _, ?_⟩
      split
      · exact induction given.2
      · exact given.2

end Templates

end TreeScript
