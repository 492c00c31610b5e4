import TreeScript.Proofs.Likeness
/-!
# What a copy is

Copying shares an array that holds no resource, and a recursion of its own decides which arrays do.
The copy that rebuilds every array item by item is written without that decision, and the two come
to the same. Either duplicates the resources of a value from left to right and leaves the rest
alone, so it succeeds unless one of them refuses, and then the first that does is the one that is
reported. An environment is copied in the order of its bindings, and the same holds of it.
-/

namespace TreeScript

set_option autoImplicit false

namespace Resource

/-- The host lets go of no duplicate. The identity that a duplicate would get plays no part. -/
def refuses (handle : Resource) : Bool := (handle.duplicate? 0).isNone

variable {handle : Resource}

theorem duplicate_refused (refused : handle.refuses = true) (fresh : Nat) :
    handle.duplicate fresh = .error ⟨handle.typeName⟩ fresh := by
  rcases handle with ⟨identity, typeName, lineage⟩
  cases lineage with
  | last => rfl
  | next | endless => cases refused

theorem duplicate_granted (granted : handle.refuses = false) (fresh : Nat) :
    ∃ copied, handle.duplicate? copied.identity = some copied ∧ copied.identity = fresh ∧
      handle.duplicate fresh = .ok copied (fresh + 1) := by
  rcases handle with ⟨identity, typeName, lineage⟩
  cases lineage with
  | last => cases granted
  | next typeName' after => exact ⟨⟨fresh, typeName', after⟩, rfl, rfl, rfl⟩
  | endless => exact ⟨⟨fresh, typeName, .endless⟩, rfl, rfl, rfl⟩

end Resource

namespace Value

mutual

/-- The copy that shares nothing: every array is built anew from copies of its items. -/
def rebuild : Value → Copying Value
  | array items => do return array (← rebuildItems items)
  | resource handle => return resource (← handle.duplicate)
  | value => return value

def rebuildItems : List Value → Copying (List Value)
  | [] => return []
  | item :: rest => do
      let rebuilt ← rebuild item
      return rebuilt :: (← rebuildItems rest)

end

mutual

/-- The resources in a value, also those in arrays inside of arrays, from left to right. -/
def resources : Value → List Resource
  | resource handle => [handle]
  | array items => itemResources items
  | _ => []

def itemResources : List Value → List Resource
  | [] => []
  | item :: rest => resources item ++ itemResources rest

end

/-- A value and a copy of it. What holds no resource is the same in both, a closure too, and a
resource is replaced by a duplicate of its own. -/
inductive CopiedTo : Value → Value → Prop where
  | same {value : Value} : value.resources = [] → CopiedTo value value
  | resource {handle copied : Resource} : handle.duplicate? copied.identity = some copied →
      CopiedTo (.resource handle) (.resource copied)
  | array {items copies : List Value} : items.length = copies.length →
      (∀ pair ∈ items.zip copies, CopiedTo pair.1 pair.2) → CopiedTo (.array items) (.array copies)

theorem CopiedTo.of_items {items copies : List Value} (copied : List.Forall₂ CopiedTo items copies) :
    CopiedTo (.array items) (.array copies) :=
  have ⟨length, each⟩ := List.forall₂_iff_zip.mp copied
  .array length fun _ member => each member

mutual

/-- The recursion that decides what is shared finds every resource and nothing else. -/
theorem holds_resource_iff : (value : Value) → (value.holdsResource = false ↔ value.resources = [])
  | void | null | bool _ | int _ | double _ | string _ | closure _ => by
      simp [holdsResource, resources]
  | resource handle => by simp [holdsResource, resources]
  | array items => by
      rw [holdsResource, resources]
      exact any_holds_resource_iff items

theorem any_holds_resource_iff : (items : List Value) →
    (anyHoldsResource items = false ↔ itemResources items = [])
  | [] => by simp [anyHoldsResource, itemResources]
  | item :: rest => by
      rw [anyHoldsResource, itemResources, Bool.or_eq_false_iff, List.append_eq_nil_iff,
        holds_resource_iff item, any_holds_resource_iff rest]

end

mutual

theorem rebuild_of_no_resource : (value : Value) → value.resources = [] →
    value.rebuild = pure value
  | void, _ | null, _ | bool _, _ | int _, _ | double _, _ | string _, _ | closure _, _ => rfl
  | resource handle, plain => by cases plain
  | array items, plain => by
      rw [resources] at plain
      rw [rebuild, rebuild_items_of_no_resource items plain, pure_bind]

theorem rebuild_items_of_no_resource : (items : List Value) → itemResources items = [] →
    rebuildItems items = pure items
  | [], _ => by rw [rebuildItems]
  | item :: rest, plain => by
      rw [itemResources, List.append_eq_nil_iff] at plain
      rw [rebuildItems, rebuild_of_no_resource item plain.1, pure_bind,
        rebuild_items_of_no_resource rest plain.2, pure_bind]

end

mutual

theorem copy_eq_rebuild : (value : Value) → value.copy = value.rebuild
  | void | null | bool _ | int _ | double _ | string _ | closure _ => rfl
  | resource handle => by rw [copy, rebuild]
  | array items => by
      rw [copy]
      cases shared : anyHoldsResource items with
      | true => rw [if_pos rfl, rebuild, copy_items_eq_rebuild items]
      | false =>
          have plain : resources (.array items) = [] := by
            rw [resources]
            exact (any_holds_resource_iff items).mp shared
          rw [if_neg Bool.false_ne_true, rebuild_of_no_resource _ plain]

theorem copy_items_eq_rebuild : (items : List Value) → copyItems items = rebuildItems items
  | [] => by rw [copyItems, rebuildItems]
  | item :: rest => by
      rw [copyItems, rebuildItems, copy_eq_rebuild item, copy_items_eq_rebuild rest]

end

end Value

section Outcomes

variable {Item Result : Type}

/-- How a copy ends that duplicates these resources from left to right: each of them takes the next
identity, or the first that refuses is reported. -/
inductive CopyEnds (handles : List Resource) (fresh : Nat) (good : Item → Prop) :
    EStateM.Result CopyError Nat Item → Prop where
  | ok {item : Item} : (∀ handle ∈ handles, handle.refuses = false) → good item →
      CopyEnds handles fresh good (.ok item (fresh + handles.length))
  | error {handle : Resource} (after : Nat) : handles.find? Resource.refuses = some handle →
      CopyEnds handles fresh good (.error ⟨handle.typeName⟩ after)

namespace CopyEnds

variable {handles handles' : List Resource} {fresh : Nat} {good : Item → Prop}
  {good' : Result → Prop}

theorem pure {item : Item} (holds : good item) :
    CopyEnds [] fresh good ((Pure.pure item : Copying Item) fresh) :=
  .ok nofun holds

theorem bind {action : Copying Item} {next : Item → Copying Result}
    (first : CopyEnds handles fresh good (action fresh))
    (others : ∀ item, good item →
      CopyEnds handles' (fresh + handles.length) good' (next item (fresh + handles.length))) :
    CopyEnds (handles ++ handles') fresh good' ((action >>= next) fresh) := by
  rw [bind_apply]
  generalize action fresh = outcome at first
  cases first with
  | error after found => exact .error after (by rw [List.find?_append, found, Option.some_or])
  | @ok item granted holds =>
      have ended := others item holds
      dsimp only
      generalize next item (fresh + handles.length) = outcome at ended
      cases ended with
      | ok later holds' =>
          rw [Nat.add_assoc, ← List.length_append]
          exact .ok (List.forall_mem_append.mpr ⟨granted, later⟩) holds'
      | error after found =>
          have passed : handles.find? Resource.refuses = none := by
            simpa using granted
          exact .error after (by rw [List.find?_append, passed, Option.none_or, found])

theorem map {action : Copying Item} {change : Item → Result}
    (first : CopyEnds handles fresh good (action fresh))
    (holds : ∀ item, good item → good' (change item)) :
    CopyEnds handles fresh good' ((action >>= fun item => Pure.pure (change item)) fresh) := by
  have whole : CopyEnds (handles ++ []) fresh good'
      ((action >>= fun item => Pure.pure (change item)) fresh) :=
    first.bind fun item given => pure (holds item given)
  rwa [List.append_nil] at whole

theorem imp {good' : Item → Prop} {outcome : EStateM.Result CopyError Nat Item}
    (ends : CopyEnds handles fresh good outcome) (holds : ∀ item, good item → good' item) :
    CopyEnds handles fresh good' outcome := by
  cases ends with
  | ok granted given => exact .ok granted (holds _ given)
  | error after found => exact .error after found

/-- Nothing but a refusal keeps a copy from being made. -/
theorem succeeds_iff {outcome : EStateM.Result CopyError Nat Item}
    (ends : CopyEnds handles fresh good outcome) :
    (∃ item after, outcome = .ok item after) ↔ ∀ handle ∈ handles, handle.refuses = false := by
  cases ends with
  | ok granted _ => exact iff_of_true ⟨_, _, rfl⟩ granted
  | error after found =>
      have refused := List.find?_some found
      refine iff_of_false (fun ⟨_, _, same⟩ => nomatch same) fun granted => ?_
      rw [granted _ (List.mem_of_find?_eq_some found)] at refused
      cases refused

end CopyEnds

end Outcomes

/-- Duplicates made one after another have the identities from the next free one on. -/
def NumberedFrom (fresh count : Nat) (handles : List Resource) : Prop :=
  handles.map Resource.identity = List.range' fresh count

theorem numbered_append {fresh count count' : Nat} {handles handles' : List Resource}
    (first : NumberedFrom fresh count handles)
    (later : NumberedFrom (fresh + count) count' handles') :
    NumberedFrom fresh (count + count') (handles ++ handles') := by
  unfold NumberedFrom at first later ⊢
  rw [List.map_append, first, later, List.range'_append_1]

namespace Value

structure FreshCopy (fresh : Nat) (value copied : Value) : Prop where
  alike : value.CopiedTo copied
  numbered : NumberedFrom fresh value.resources.length copied.resources

structure FreshCopies (fresh : Nat) (items copies : List Value) : Prop where
  alike : List.Forall₂ CopiedTo items copies
  numbered : NumberedFrom fresh (itemResources items).length (itemResources copies)

theorem FreshCopy.same {value : Value} (plain : value.resources = []) (fresh : Nat) :
    FreshCopy fresh value value :=
  ⟨.same plain, by rw [plain]; rfl⟩

theorem FreshCopies.cons {fresh : Nat} {item copied : Value} {rest copies : List Value}
    (first : FreshCopy fresh item copied)
    (others : FreshCopies (fresh + item.resources.length) rest copies) :
    FreshCopies fresh (item :: rest) (copied :: copies) where
  alike := .cons first.alike others.alike
  numbered := by
    rw [itemResources, itemResources, List.length_append]
    exact numbered_append first.numbered others.numbered

theorem rebuild_resource_ends (handle : Resource) (fresh : Nat) :
    CopyEnds [handle] fresh (FreshCopy fresh (.resource handle))
      (rebuild (.resource handle) fresh) := by
  rw [rebuild, bind_apply]
  cases refuses : handle.refuses with
  | true =>
      rw [Resource.duplicate_refused refuses]
      exact .error fresh (by simp [refuses])
  | false =>
      obtain ⟨copied, duplicated, numbered, done⟩ := Resource.duplicate_granted refuses fresh
      rw [done]
      exact .ok (by simpa using refuses) ⟨.resource duplicated, congrArg ([·]) numbered⟩

mutual

theorem rebuild_ends : (value : Value) → (fresh : Nat) →
    CopyEnds value.resources fresh (FreshCopy fresh value) (value.rebuild fresh)
  | void, fresh | null, fresh | bool _, fresh | int _, fresh | double _, fresh
  | string _, fresh | closure _, fresh => .pure (.same rfl fresh)
  | resource handle, fresh => rebuild_resource_ends handle fresh
  | array items, fresh => by
      rw [rebuild, resources]
      exact (rebuild_items_ends items fresh).map fun copies rebuilt =>
        ⟨.of_items rebuilt.alike, rebuilt.numbered⟩

theorem rebuild_items_ends : (items : List Value) → (fresh : Nat) →
    CopyEnds (itemResources items) fresh (FreshCopies fresh items) (rebuildItems items fresh)
  | [], fresh => .pure ⟨.nil, rfl⟩
  | item :: rest, fresh => by
      rw [rebuildItems, itemResources]
      exact (rebuild_ends item fresh).bind fun copied first =>
        (rebuild_items_ends rest _).map fun copies others => .cons first others

end

theorem copy_ends (value : Value) (fresh : Nat) :
    CopyEnds value.resources fresh (FreshCopy fresh value) (value.copy fresh) := by
  rw [copy_eq_rebuild]
  exact value.rebuild_ends fresh

end Value

section Environments

def entryResources (entries : List (String × Value)) : List Resource :=
  entries.flatMap fun entry => entry.2.resources

theorem copy_entries_end (entries : List (String × Value)) (fresh : Nat) :
    CopyEnds (entryResources entries) fresh (fun copies =>
      List.Forall₂ (fun entry entry' => entry.1 = entry'.1 ∧ entry.2.CopiedTo entry'.2) entries
        copies ∧
      NumberedFrom fresh (entryResources entries).length (entryResources copies))
      (copyEntries entries fresh) := by
  induction entries generalizing fresh with
  | nil => exact .pure ⟨.nil, rfl⟩
  | cons entry rest induction =>
      obtain ⟨name, value⟩ := entry
      rw [copyEntries]
      refine (value.copy_ends fresh).bind fun copied first => (induction _).map fun copies others => ?_
      refine ⟨.cons ⟨rfl, first.alike⟩ others.1, ?_⟩
      simp only [entryResources, List.flatMap_cons, List.length_append]
      exact numbered_append first.numbered others.2

namespace Environment

def resources (env : Environment) : List Resource := entryResources env.vars.entries

/-- What a copy of an environment has to be: nothing but the values of its variables is copied. -/
structure FreshCopy (fresh : Nat) (env copied : Environment) : Prop where
  vars : env.vars.Like Value.CopiedTo copied.vars
  others : copied = { env with vars := copied.vars }
  numbered : NumberedFrom fresh env.resources.length copied.resources

theorem copy_ends (env : Environment) (fresh : Nat) :
    CopyEnds env.resources fresh (FreshCopy fresh env) (env.copy fresh) :=
  (copy_entries_end env.vars.entries fresh).map fun _ ⟨bound, numbered⟩ => ⟨bound, rfl, numbered⟩

end Environment

end Environments

/-- Sharing arrays without resources makes no difference to a copy. It succeeds exactly if every
resource at any depth can be duplicated, and is then the same value around fresh duplicates; else
it reports the first resource, from left to right, that refuses. Of an environment the same holds
in the order of its bindings. -/
theorem copying_rebuilds (value : Value) (env : Environment) (fresh : Nat) :
    value.copy = value.rebuild ∧
    ((∃ copied after, value.copy fresh = .ok copied after) ↔
      ∀ handle ∈ value.resources, handle.refuses = false) ∧
    CopyEnds value.resources fresh (value.FreshCopy fresh) (value.copy fresh) ∧
    ((∃ copied after, env.copy fresh = .ok copied after) ↔
      ∀ entry ∈ env.vars.entries, ∀ handle ∈ entry.2.resources, handle.refuses = false) ∧
    CopyEnds env.resources fresh (env.FreshCopy fresh) (env.copy fresh) := by
  have ends := value.copy_ends fresh
  have ends' := env.copy_ends fresh
  refine ⟨value.copy_eq_rebuild, ends.succeeds_iff, ends, ?_, ends'⟩
  rw [ends'.succeeds_iff]
  simp only [Environment.resources, entryResources, List.mem_flatMap]
  exact ⟨fun granted entry bound handle held => granted handle ⟨entry, bound, held⟩,
    fun granted handle ⟨entry, bound, held⟩ => granted entry bound handle held⟩

/-- Of two resources that refuse, the one further left counts, however deep it lies. -/
example (fresh : Nat) :
    (Value.array [.array [.int 1, .resource ⟨0, "file", .endless⟩, .array [.resource
      ⟨1, "socket", .last⟩]], .resource ⟨2, "lock", .last⟩]).copy fresh =
        .error ⟨"socket"⟩ (fresh + 1) := rfl

end TreeScript
