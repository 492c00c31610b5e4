import TreeScript.Proofs.Standard
/-!
# Two runs from two stores

The same code may run twice, from a store and from one that came later. What the first run does
the second does too, but the closures and resources that they make have other identities. A
pairing says which identities of the two runs stand for each other: some that are older than both
runs stand for themselves, and those given out since correspond in the order in which they were
given out. Nothing is said of any other identity, so the two stores may differ in what closures
have captured that no value of the runs leads to.
-/

namespace TreeScript

set_option autoImplicit false

/-- Which identities stand for each other. Both runs give out identities from a number on. -/
structure Numbering where
  kept : Nat → Prop
  start : Nat
  start' : Nat

namespace Numbering

variable {numbering : Numbering} {count count' identity identity' other other' : Nat}

def Level (numbering : Numbering) (count count' : Nat) : Prop :=
  ∃ since, count = numbering.start + since ∧ count' = numbering.start' + since

def Pairs (numbering : Numbering) (identity identity' : Nat) : Prop :=
  (numbering.kept identity ∧ identity = identity' ∧ identity < numbering.start ∧
    identity' < numbering.start') ∨ numbering.Level identity identity'

theorem level_at_start (numbering : Numbering) :
    numbering.Level numbering.start numbering.start' :=
  ⟨0, rfl, rfl⟩

theorem Level.next (level : numbering.Level count count') :
    numbering.Level (count + 1) (count' + 1) := by
  obtain ⟨since, rfl, rfl⟩ := level
  exact ⟨since + 1, rfl, rfl⟩

theorem Pairs.same_iff (pairs : numbering.Pairs identity identity')
    (others : numbering.Pairs other other') : identity = other ↔ identity' = other' := by
  obtain ⟨-, rfl, below, below'⟩ | ⟨since, rfl, rfl⟩ := pairs <;>
    obtain ⟨-, rfl, below, below'⟩ | ⟨later, rfl, rfl⟩ := others <;>
    omega

end Numbering

/-- Two stores to run from, and the identities older than both that stand for themselves. -/
structure Pairing where
  keepsClosure : Nat → Prop
  keepsResource : Nat → Prop
  store : Store
  store' : Store

namespace Pairing

def closures (pairing : Pairing) : Numbering :=
  ⟨pairing.keepsClosure, pairing.store.captured.size, pairing.store'.captured.size⟩

def resources (pairing : Pairing) : Numbering :=
  ⟨pairing.keepsResource, pairing.store.resources, pairing.store'.resources⟩

end Pairing

def Tree.literals (tree : Tree) : List Value := tree.payloads.filterMap Payload.value?

theorem Tree.mem_literals {payload : Payload} {position : Position} {optimized : Bool}
    {facts : Facts} {children : List Tree} {value : Value} :
    value ∈ Tree.literals ⟨payload, position, optimized, facts, children⟩ ↔
      payload.value? = some value ∨ ∃ child ∈ children, value ∈ child.literals := by
  simp only [literals, payloads, childPayloads_eq_flatMap, List.mem_filterMap, List.mem_cons,
    List.mem_flatMap]
  constructor
  · rintro ⟨written, rfl | ⟨child, member, inside⟩, holds⟩
    · exact Or.inl holds
    · exact Or.inr ⟨child, member, written, inside, holds⟩
  · rintro (holds | ⟨child, member, written, inside, holds⟩)
    · exact ⟨payload, Or.inl rfl, holds⟩
    · exact ⟨written, Or.inr ⟨child, member, inside⟩, holds⟩

/-- The same value but for the identities in it. Closures have one body, and the values written
there stand for themselves. -/
inductive Value.Alike (pairing : Pairing) : Value → Value → Prop where
  | basic {value : Value} : value.isBasic = true → Alike pairing value value
  | resource {identity identity' : Nat} (typeName : String) (lineage : Lineage) :
      pairing.resources.Pairs identity identity' →
      Alike pairing (.resource ⟨identity, typeName, lineage⟩)
        (.resource ⟨identity', typeName, lineage⟩)
  | array {items items' : List Value} : items.length = items'.length →
      (∀ {item item'}, (item, item') ∈ items.zip items' → Alike pairing item item') →
      Alike pairing (.array items) (.array items')
  | closure {identity identity' : Nat} {params params' : List Param} {body : Tree}
      (position : Position) : pairing.closures.Pairs identity identity' →
      List.Forall₂ (fun param param' => param.name = param'.name) params params' →
      (∀ {param param'}, (param, param') ∈ params.zip params' →
        Alike pairing param.default param'.default) →
      (∀ literal ∈ body.literals, Alike pairing literal literal) →
      Alike pairing (.closure ⟨identity, params, body, position⟩)
        (.closure ⟨identity', params', body, position⟩)

def Tree.Stands (pairing : Pairing) (tree : Tree) : Prop :=
  ∀ literal ∈ tree.literals, literal.Alike pairing literal

theorem Tree.stands_iff {pairing : Pairing} {payload : Payload} {position : Position}
    {optimized : Bool} {facts : Facts} {children : List Tree} :
    Tree.Stands pairing ⟨payload, position, optimized, facts, children⟩ ↔
      (∀ value, payload.value? = some value → value.Alike pairing value) ∧
      ∀ child ∈ children, child.Stands pairing := by
  simp only [Stands, mem_literals]
  constructor
  · exact fun stands => ⟨fun value holds => stands value (Or.inl holds),
      fun child member value inside => stands value (Or.inr ⟨child, member, inside⟩)⟩
  · rintro ⟨here, below⟩ value (holds | ⟨child, member, inside⟩)
    · exact here value holds
    · exact below child member value inside

structure Param.Alike (pairing : Pairing) (param param' : Param) : Prop where
  name : param.name = param'.name
  default : param.default.Alike pairing param'.default

abbrev ValuesAlike (pairing : Pairing) : List Value → List Value → Prop :=
  List.Forall₂ (Value.Alike pairing)

abbrev ParamsAlike (pairing : Pairing) : List Param → List Param → Prop :=
  List.Forall₂ (Param.Alike pairing)

structure Procedure.Alike (pairing : Pairing) (procedure procedure' : Procedure) : Prop where
  name : procedure.name = procedure'.name
  params : ParamsAlike pairing procedure.params procedure'.params
  body : procedure.body = procedure'.body
  stands : procedure.body.Stands pairing
  position : procedure.position = procedure'.position

structure Environment.Alike (pairing : Pairing) (env env' : Environment) : Prop where
  vars : env.vars.Like (Value.Alike pairing) env'.vars
  procedures : env.procedures.Like (Procedure.Alike pairing) env'.procedures
  label : env.label = env'.label
  command : env.command = env'.command
  script : env.script = env'.script
  sink : env.sink = env'.sink
  depth : env.depth = env'.depth

/-- Texts that have been added to two lists of texts are the same. -/
def SameSince (start start' texts texts' : Array String) : Prop :=
  ∃ added, texts = start ++ added ∧ texts' = start' ++ added

/-- What two runs make of the stores that they started from. Where identities stand for each
other, so do the environments captured under them. -/
structure Store.Alike (pairing : Pairing) (store store' : Store) : Prop where
  captured : ∀ {identity identity'}, pairing.closures.Pairs identity identity' →
    Option.Rel (Environment.Alike pairing) store.captured[identity]? store'.captured[identity']?
  closures : pairing.closures.Level store.captured.size store'.captured.size
  resources : pairing.resources.Level store.resources store'.resources
  lines : ∀ sink, SameSince (pairing.store.lines sink) (pairing.store'.lines sink)
    (store.lines sink) (store'.lines sink)
  reports : SameSince pairing.store.reports pairing.store'.reports store.reports store'.reports
  interrupted : store.interrupted = store'.interrupted

theorem SameSince.push {start start' texts texts' : Array String}
    (same : SameSince start start' texts texts') (text : String) :
    SameSince start start' (texts.push text) (texts'.push text) := by
  obtain ⟨added, rfl, rfl⟩ := same
  exact ⟨added.push text, by simp, by simp⟩

section Values

variable {pairing : Pairing}

theorem values_alike_iff {items items' : List Value} :
    (Value.array items).Alike pairing (.array items') ↔ ValuesAlike pairing items items' := by
  rw [ValuesAlike, List.forall₂_iff_zip]
  constructor
  · intro alike
    cases alike with
    | basic isBasic => cases isBasic
    | array length each => exact ⟨length, each⟩
  · exact fun ⟨length, each⟩ => .array length each

theorem params_alike_iff {params params' : List Param} :
    ParamsAlike pairing params params' ↔
      List.Forall₂ (fun param param' => param.name = param'.name) params params' ∧
      ∀ {param param'}, (param, param') ∈ params.zip params' →
        param.default.Alike pairing param'.default := by
  rw [ParamsAlike, List.forall₂_iff_zip, List.forall₂_iff_zip]
  constructor
  · exact fun ⟨length, each⟩ =>
      ⟨⟨length, fun member => (each member).name⟩, fun member => (each member).default⟩
  · exact fun ⟨⟨length, names⟩, defaults⟩ =>
      ⟨length, fun member => ⟨names member, defaults member⟩⟩

namespace Value.Alike

variable {value value' other other' : Value}

theorem void : Value.void.Alike pairing .void := .basic rfl

theorem of_items {items items' : List Value} (alike : ValuesAlike pairing items items') :
    (Value.array items).Alike pairing (.array items') :=
  values_alike_iff.mpr alike

theorem of_closure {identity identity' : Nat} {params params' : List Param} {body : Tree}
    (position : Position) (pairs : pairing.closures.Pairs identity identity')
    (alike : ParamsAlike pairing params params') (stands : body.Stands pairing) :
    (Value.closure ⟨identity, params, body, position⟩).Alike pairing
      (.closure ⟨identity', params', body, position⟩) :=
  have ⟨names, defaults⟩ := params_alike_iff.mp alike
  .closure position pairs names defaults stands

theorem closure_cases {callee : Closure} (alike : (Value.closure callee).Alike pairing value') :
    ∃ identity' params', value' = .closure ⟨identity', params', callee.body, callee.position⟩ ∧
      pairing.closures.Pairs callee.identity identity' ∧
      ParamsAlike pairing callee.params params' ∧ callee.body.Stands pairing := by
  cases alike with
  | basic isBasic => cases isBasic
  | closure position pairs names defaults stands =>
      exact ⟨_, _, rfl, pairs, params_alike_iff.mpr ⟨names, defaults⟩, stands⟩

theorem type_name (alike : value.Alike pairing value') : value.typeName = value'.typeName := by
  cases alike <;> rfl

theorem truthy (alike : value.Alike pairing value') : value.isTruthy = value'.isTruthy := by
  cases alike with
  | @array items items' length => cases items <;> cases items' <;> first | rfl | cases length
  | _ => rfl

theorem texts_same {items items' : List Value}
    (each : List.Forall₂ (fun item item' => item.text = item'.text) items items') :
    Value.texts items = Value.texts items' := by
  induction each with
  | nil => rfl
  | cons first others induction =>
      cases others with
      | nil => simpa only [Value.texts] using first
      | cons second later =>
          show _ ++ ", " ++ Value.texts _ = _ ++ ", " ++ Value.texts _
          rw [first, induction]

theorem text (alike : value.Alike pairing value') : value.text = value'.text := by
  induction alike with
  | basic | resource => rfl
  | array length each induction =>
      rw [Value.text, Value.text, texts_same (List.forall₂_iff_zip.mpr ⟨length, induction⟩)]
  | closure => rfl

theorem diagnostics_same {items items' : List Value}
    (each : List.Forall₂ (fun item item' => item.diagnostic = item'.diagnostic) items items') :
    Value.diagnostics items = Value.diagnostics items' := by
  induction each with
  | nil => rfl
  | cons first others induction =>
      cases others with
      | nil => simpa only [Value.diagnostics] using first
      | cons second later =>
          show _ ++ ", " ++ Value.diagnostics _ = _ ++ ", " ++ Value.diagnostics _
          rw [first, induction]

theorem diagnostic (alike : value.Alike pairing value') :
    value.diagnostic = value'.diagnostic := by
  induction alike with
  | basic | resource => rfl
  | array length each induction =>
      rw [Value.diagnostic, Value.diagnostic,
        diagnostics_same (List.forall₂_iff_zip.mpr ⟨length, induction⟩)]
  | closure => rfl

theorem same_items {items items' : List Value}
    (each : List.Forall₂ (fun item item' => ∀ {other other' : Value},
      other.Alike pairing other' → Value.same item other = Value.same item' other') items items')
    {others others' : List Value} (alike : ValuesAlike pairing others others') :
    Value.sameItems items others = Value.sameItems items' others' := by
  induction each generalizing others others' with
  | nil => cases alike <;> rfl
  | cons first later induction =>
      cases alike with
      | nil => rfl
      | cons second rest =>
          rw [Value.sameItems, Value.sameItems, first second, induction rest]

theorem basic_differs (isBasic : value.isBasic = true) (holding : other.isBasic = false) :
    Value.same value other = false ∧ Value.same other value = false := by
  cases value <;> first | (cases isBasic; done) | (cases other <;> first | exact ⟨rfl, rfl⟩ |
    cases holding)

theorem same (alike : value.Alike pairing value') (others : other.Alike pairing other') :
    Value.same value other = Value.same value' other' := by
  induction alike generalizing other other' with
  | basic isBasic =>
      cases others with
      | basic => rfl
      | _ => rw [(basic_differs isBasic rfl).1, (basic_differs isBasic rfl).1]
  | resource typeName lineage pairs =>
      cases others with
      | basic isBasic => rw [(basic_differs isBasic rfl).2, (basic_differs isBasic rfl).2]
      | resource _ _ pairs' =>
          simp only [Value.same, beq_eq_beq]
          exact pairs.same_iff pairs'
      | _ => rfl
  | array length each induction =>
      cases others with
      | basic isBasic => rw [(basic_differs isBasic rfl).2, (basic_differs isBasic rfl).2]
      | array length' each' =>
          rw [Value.same, Value.same]
          exact same_items (List.forall₂_iff_zip.mpr ⟨length, induction⟩)
            (List.forall₂_iff_zip.mpr ⟨length', each'⟩)
      | _ => rfl
  | closure position pairs =>
      cases others with
      | basic isBasic => rw [(basic_differs isBasic rfl).2, (basic_differs isBasic rfl).2]
      | closure _ pairs' =>
          simp only [Value.same, beq_eq_beq]
          exact pairs.same_iff pairs'
      | _ => rfl

end Value.Alike

end Values

section Environments

variable {pairing : Pairing} {env env' : Environment}

namespace Environment.Alike

theorem nothing (pairing : Pairing) : ({} : Environment).Alike pairing {} :=
  ⟨.nil, .nil, rfl, rfl, rfl, rfl, rfl⟩

theorem set (alike : env.Alike pairing env') (name : String) {value value' : Value}
    (related : value.Alike pairing value') :
    (env.set name value).Alike pairing (env'.set name value') :=
  { alike with vars := alike.vars.put name related }

theorem define (alike : env.Alike pairing env') {procedure procedure' : Procedure}
    (related : procedure.Alike pairing procedure') :
    (env.define procedure).Alike pairing (env'.define procedure') := by
  unfold Environment.define
  rw [← related.name]
  exact { alike with procedures := alike.procedures.put procedure.name related }

theorem procedure_scope (alike : env.Alike pairing env') :
    env.procedureScope.Alike pairing env'.procedureScope :=
  { alike with vars := .nil }

theorem at_depth (alike : env.Alike pairing env') (depth : Nat) :
    Environment.Alike pairing { env with depth } { env' with depth } :=
  { alike with depth := rfl }

end Environment.Alike

namespace Store.Alike

variable {store store' : Store}

theorem emit (alike : store.Alike pairing store') (line : String) (sink : Sink) :
    (store.emit line sink).Alike pairing (store'.emit line sink) := by
  have lines : ∀ other, SameSince (pairing.store.lines other) (pairing.store'.lines other)
      ((store.emit line sink).lines other) ((store'.emit line sink).lines other) := by
    intro other
    rw [Store.lines_emit, Store.lines_emit]
    split
    · exact (alike.lines other).push line
    · exact alike.lines other
  exact { alike with lines }

theorem environment_of (alike : store.Alike pairing store') {closure closure' : Closure}
    (pairs : pairing.closures.Pairs closure.identity closure'.identity) :
    (store.environmentOf closure).Alike pairing (store'.environmentOf closure') := by
  have found := alike.captured pairs
  unfold Store.environmentOf
  generalize store.captured[closure.identity]? = env at found
  generalize store'.captured[closure'.identity]? = env' at found
  cases found with
  | none => exact .nothing pairing
  | some related => exact related

theorem give_resources (alike : store.Alike pairing store') {fresh fresh' : Nat}
    (level : pairing.resources.Level fresh fresh') :
    Store.Alike pairing { store with resources := fresh } { store' with resources := fresh' } :=
  { alike with resources := level }

/-- A closure that is made in both runs has identities that stand for each other. -/
theorem capture (alike : store.Alike pairing store') (captured : env.Alike pairing env') :
    Store.Alike pairing { store with captured := store.captured.push env }
      { store' with captured := store'.captured.push env' } := by
  refine { alike with captured := fun {identity identity'} pairs => ?_, closures := ?_ }
  · have newest := pairs.same_iff (Or.inr alike.closures)
    rw [Array.getElem?_push, Array.getElem?_push]
    by_cases last : identity = store.captured.size
    · rw [if_pos last, if_pos (newest.mp last)]
      exact .some captured
    · rw [if_neg last, if_neg (last ∘ newest.mpr)]
      exact alike.captured pairs
  · rw [Array.size_push, Array.size_push]
    exact alike.closures.next

end Store.Alike

end Environments

end TreeScript
