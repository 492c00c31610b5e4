import Mathlib.Logic.Relation
import TreeScript.Proofs.Chronology
import TreeScript.Proofs.Steadiness
/-!
# Invocations are isolated

A closure runs in a copy of what it has captured, so nothing that happens between two invocations
makes them differ, unless the host changes what a closure has captured that the invocation can get
at. It can get at closures through what it has captured itself, but also through its arguments, and
through what those have captured in turn. As long as the host changes none of these, both
invocations come to the same result or the same error, with the same lines written, but for the
identities of the closures and resources that they make.

The functions that scripts call are those of the host. What is asked of them is that they do the
same in both invocations, and that they do not themselves change what those closures have captured.
The functions of the prelude do both.
-/

namespace TreeScript

set_option autoImplicit false

/-- Every function does the same in two runs if the values that it holds on to stand for
themselves. -/
def Registry.Steady (held : Value → Prop) (registry : Registry) : Prop :=
  ∀ pairing : Pairing, (∀ value, held value → value.Alike pairing value) →
    registry.SteadyUnder pairing

/-- A later store in which some closures have captured what they had before. No resource gets an
identity that another one has had. -/
structure Store.Spares (spared : Nat → Prop) (store after : Store) : Prop where
  captured : ∀ identity, spared identity → identity < store.captured.size →
    after.captured[identity]? = store.captured[identity]?
  resources : store.resources ≤ after.resources

/-- No function changes what these closures have captured. -/
def Registry.Spares (spared : Nat → Prop) (registry : Registry) : Prop :=
  ∀ name builtin, registry.find? name = some builtin → ∀ site arguments,
    Forward (Store.Spares spared) (builtin.run site arguments)

section Sparing

variable {spared : Nat → Prop} {store between after : Store}

namespace Store.Spares

theorem of_captured (same : after.captured = store.captured)
    (resources : store.resources ≤ after.resources) : store.Spares spared after where
  captured identity _ _ := by rw [same]
  resources := resources

theorem refl (store : Store) : store.Spares spared store := of_captured rfl (Nat.le_refl _)

theorem still_there (spares : store.Spares spared after) {identity : Nat}
    (keeps : spared identity) (below : identity < store.captured.size) :
    identity < after.captured.size := by
  have there := spares.captured identity keeps below
  rw [Array.getElem?_eq_getElem below] at there
  exact (Array.getElem?_eq_some_iff.mp there).1

theorem trans (first : store.Spares spared between) (second : between.Spares spared after) :
    store.Spares spared after where
  captured identity keeps below :=
    (second.captured identity keeps (first.still_there keeps below)).trans
      (first.captured identity keeps below)
  resources := Nat.le_trans first.resources second.resources

theorem capture (store : Store) (env : Environment) :
    store.Spares spared { store with captured := store.captured.push env } where
  captured identity _ below := by
    rw [Array.getElem?_push, if_neg (Nat.ne_of_lt below)]
  resources := Nat.le_refl _

theorem modify {closure : Closure} (other : ¬ spared closure.identity)
    (change : Environment → Environment) :
    store.Spares spared (store.modifyCaptured closure change) where
  captured identity keeps _ := by
    have differs : closure.identity ≠ identity := by
      rintro rfl
      exact other keeps
    show (store.captured.modify closure.identity change)[identity]? = _
    rw [Array.getElem?_modify, if_neg differs]
  resources := Nat.le_refl _

theorem environment_of (spares : store.Spares spared after) {closure : Closure}
    (keeps : spared closure.identity) (below : closure.identity < store.captured.size) :
    after.environmentOf closure = store.environmentOf closure := by
  unfold Store.environmentOf
  rw [spares.captured _ keeps below]

end Store.Spares

theorem Registry.Spares.chronology {registry : Registry} (spares : registry.Spares spared) :
    Chronology registry (Store.Spares spared) where
  refl := .refl
  trans := .trans
  numbers _ _ grown := .of_captured rfl grown
  captures := .capture
  calls := spares

theorem Store.copying_spares {Item : Type} {action : Copying Item} (counts : Counts action) :
    Forward (Store.Spares spared) (Store.copying action) := by
  intro store
  have counted := counts store.resources
  unfold Store.copying
  cases outcome : action store.resources <;>
    · rw [outcome] at counted
      exact .of_captured rfl counted

theorem Store.new_closure_spares (params : List Param) (body : Tree) (position : Position)
    (env : Environment) :
    Forward (Store.Spares spared) (Store.newClosure params body position env) := by
  intro store
  have copied : Forward (Store.Spares spared) (Store.copying env.copy) :=
    copying_spares env.copy_counts
  unfold Store.newClosure
  rw [bind_apply]
  cases outcome : Store.copying env.copy store with
  | ok captured between => exact (copied.of_ok outcome).trans (.capture between captured)
  | error error between => exact copied.of_error outcome

/-- No function of the prelude changes what any closure has captured. -/
theorem Prelude.registry_spares (spared : Nat → Prop) : registry.Spares spared := by
  have reader : ∀ result : Except Fault Value,
      Forward (Store.Spares spared) (Action.ofExcept result) := by
    intro result store
    cases result <;> exact .refl store
  have each : ∀ builtin ∈ builtins, ∀ site arguments,
      Forward (Store.Spares spared) (builtin.run site arguments) := by
    apply builtins_hold
    · exact fun _ _ _ _ function _ _ site arguments => reader (function arguments)
    · intro docs site arguments store
      dsimp only [message]
      cases site.requireEnv with
      | ok env => exact .of_captured rfl (Nat.le_refl _)
      | error fault => exact .refl store
    · exact fun _ site arguments => reader (reflectPull site arguments)
    · exact fun _ site arguments => reader (reflectDocs site arguments)
  exact fun name builtin found => each builtin (Registry.find_of_list found).1

theorem Prelude.registry_steady (held : Value → Prop) : registry.Steady held :=
  fun pairing _ => registry_steady_under pairing

end Sparing

structure World where
  envs : List Environment := []
  store : Store := {}

/-- What a host may do between two invocations of a closure. -/
inductive Deed where
  /-- Runs a script in an environment. -/
  | run (index : Nat) (context : Context) (tree : Tree)
  /-- Sets, removes or clears variables of an environment, or defines procedures there. -/
  | change (index : Nat) (change : Environment → Environment)
  /-- Makes an environment. -/
  | create (env : Environment)
  /-- Copies an environment. -/
  | clone (index : Nat)
  /-- Makes a closure that captures an environment. -/
  | capture (index : Nat) (params : List Param) (body : Tree) (position : Position)
  /-- Invokes a closure. -/
  | invoke (context : Context) (closure : Closure) (arguments : List Value)
  /-- Copies what a closure has captured. -/
  | expose (closure : Closure)
  /-- Changes what a closure has captured. -/
  | mutate (closure : Closure) (change : Environment → Environment)
  /-- Makes a resource. -/
  | provide (typeName : String) (lineage : Lineage)
  /-- Writes a line. -/
  | emit (sink : Sink) (line : String)
  | interrupt
  | resetInterrupt

namespace World

def adopt (world : World) : EStateM.Result CopyError Store Environment → World
  | .ok env store => ⟨world.envs ++ [env], store⟩
  | .error _ store => { world with store }

def perform (world : World) : Deed → World
  | .run index context tree =>
      match world.envs[index]? with
      | some env =>
          let after := finalMachine (tree.run context ⟨env, world.store⟩)
          ⟨world.envs.set index after.env, after.store⟩
      | none => world
  | .change index change => { world with envs := world.envs.modify index change }
  | .create env => { world with envs := world.envs ++ [env] }
  | .clone index =>
      match world.envs[index]? with
      | some env => world.adopt (Store.copying env.copy world.store)
      | none => world
  | .capture index params body position =>
      match world.envs[index]? with
      | some env =>
          match Store.newClosure params body position env world.store with
          | .ok _ store | .error _ store => { world with store }
      | none => world
  | .invoke context closure arguments =>
      let after := finalMachine (closure.call context arguments ⟨{}, world.store⟩)
      { world with store := after.store }
  | .expose closure => world.adopt (closure.environment world.store)
  | .mutate closure change => { world with store := world.store.modifyCaptured closure change }
  | .provide typeName lineage =>
      { world with store := (world.store.newResource typeName lineage).2 }
  | .emit sink line => { world with store := world.store.emit line sink }
  | .interrupt => { world with store := world.store.interrupt }
  | .resetInterrupt => { world with store := world.store.resetInterrupt }

def performAll (world : World) (deeds : List Deed) : World := deeds.foldl perform world

end World

/-- The deed does not change what these closures have captured, and has no function do so. -/
def Deed.Spares (spared : Nat → Prop) : Deed → Prop
  | .run _ context _ | .invoke context _ _ => context.registry.Spares spared
  | .mutate closure _ => ¬ spared closure.identity
  | _ => True

section Deeds

variable {spared : Nat → Prop} {world : World}

theorem MovesOn.final {Result : Type} {earlier : Store → Store → Prop} {action : Run Result}
    (moves : MovesOn earlier action) (machine : Machine) :
    earlier machine.store (finalMachine (action machine)).store := by
  cases outcome : action machine with
  | ok result after => exact moves.of_ok outcome
  | error error after => exact moves.of_error outcome

theorem World.adopt_spares {action : EStateM CopyError Store Environment}
    (forward : Forward (Store.Spares spared) action) :
    world.store.Spares spared (world.adopt (action world.store)).store := by
  cases outcome : action world.store with
  | ok env store => exact forward.of_ok outcome
  | error error store => exact forward.of_error outcome

theorem World.perform_spares {deed : Deed} (spares : deed.Spares spared) :
    world.store.Spares spared (world.perform deed).store := by
  have reports : ∀ (store : Store) error, store.Spares spared (store.report error) :=
    fun store error => .of_captured rfl (Nat.le_refl _)
  cases deed with
  | run index context tree =>
      have order : Chronology context.registry (Store.Spares spared) :=
        Registry.Spares.chronology spares
      unfold perform
      dsimp only
      split
      · rename_i env found
        exact (order.run reports tree).final ⟨env, world.store⟩
      · exact .refl _
  | invoke context closure arguments =>
      have order : Chronology context.registry (Store.Spares spared) :=
        Registry.Spares.chronology spares
      exact (order.call reports closure arguments).final ⟨{}, world.store⟩
  | clone index =>
      unfold perform
      dsimp only
      split
      · exact adopt_spares (Store.copying_spares (Environment.copy_counts _))
      · exact .refl _
  | capture index params body position =>
      unfold perform
      dsimp only
      split
      · rename_i env found
        have made : Forward (Store.Spares spared) (Store.newClosure params body position env) :=
          Store.new_closure_spares params body position env
        cases outcome : Store.newClosure params body position env world.store with
        | ok closure store => exact made.of_ok outcome
        | error error store => exact made.of_error outcome
      · exact .refl _
  | expose closure =>
      have copied : Forward (Store.Spares spared) closure.environment := fun store =>
        Store.copying_spares (Environment.copy_counts (store.environmentOf closure)) store
      exact adopt_spares copied
  | mutate closure change => exact .modify spares change
  | provide typeName lineage => exact .of_captured rfl (Nat.le_succ _)
  | change | create | emit | interrupt | resetInterrupt => exact .of_captured rfl (Nat.le_refl _)

theorem World.perform_all_spares {deeds : List Deed} (spare : ∀ deed ∈ deeds, deed.Spares spared) :
    world.store.Spares spared (world.performAll deeds).store := by
  induction deeds generalizing world with
  | nil => exact .refl _
  | cons deed deeds induction =>
      rw [List.forall_mem_cons] at spare
      exact (perform_spares spare.1).trans (induction spare.2)

end Deeds

def Procedure.values (procedure : Procedure) : List Value :=
  procedure.params.map Param.default ++ procedure.body.literals

def Environment.values (env : Environment) : List Value :=
  env.vars.items ++ env.procedures.items.flatMap Procedure.values

namespace Store

/-- The values that one gets at through a value: the items of an array, and the defaults of a
closure, the values written in its body and those in what it has captured. -/
def parts (store : Store) : Value → List Value
  | .array items => items
  | .closure closure =>
      closure.params.map Param.default ++ closure.body.literals ++
        (store.environmentOf closure).values
  | _ => []

def Reaches (store : Store) : Value → Value → Prop :=
  Relation.ReflTransGen fun value part => part ∈ store.parts value

/-- An invocation can get at the closure, at the arguments, at what functions hold on to, and at
all that is reached from there. -/
def InReach (store : Store) (held : Value → Prop) (closure : Closure) (arguments : List Value)
    (value : Value) : Prop :=
  ∃ root, (root = .closure closure ∨ root ∈ arguments ∨ held root) ∧ store.Reaches root value

/-- Closures and resources have identities that the store has given out. There is no other way to
come by one. -/
def GaveOut (store : Store) : Value → Prop
  | .closure closure => closure.identity < store.captured.size
  | .resource handle => handle.identity < store.resources
  | _ => True

end Store

def ClosureOf (known : Value → Prop) (identity : Nat) : Prop :=
  ∃ closure : Closure, known (.closure closure) ∧ closure.identity = identity

def ResourceOf (known : Value → Prop) (identity : Nat) : Prop :=
  ∃ handle : Resource, known (.resource handle) ∧ handle.identity = identity

/-- Known values of an earlier store stand for themselves in a later one. -/
def Pairing.between (known : Value → Prop) (store store' : Store) : Pairing :=
  ⟨ClosureOf known, ResourceOf known, store, store'⟩

section Reach

theorem Tree.literal_smaller {tree : Tree} {literal : Value} (member : literal ∈ tree.literals) :
    sizeOf literal < sizeOf tree := by
  induction tree using Tree.induction with
  | node payload position optimized facts children induction =>
      obtain holds | ⟨child, inside, below⟩ := mem_literals.mp member
      · cases payload <;> cases holds
        simp
        omega
      · have smaller := induction child inside below
        have bounded := List.sizeOf_lt_of_mem inside
        simp
        omega

variable {known : Value → Prop} {store after : Store}
  (closed : ∀ value, known value → ∀ part ∈ store.parts value, known part)
  (gave_out : ∀ value, known value → store.GaveOut value)
  (spares : store.Spares (ClosureOf known) after)

include closed gave_out spares

theorem known_alike : (value : Value) → known value →
    value.Alike (Pairing.between known store after) value
  | .void, _ | .null, _ | .bool _, _ | .int _, _ | .double _, _ | .string _, _ => .basic rfl
  | .resource ⟨identity, typeName, lineage⟩, here =>
      have below : identity < store.resources := gave_out _ here
      .resource typeName lineage (Or.inl ⟨⟨_, here, rfl⟩, rfl, below,
        Nat.lt_of_lt_of_le below spares.resources⟩)
  | .array items, here =>
      .of_items (List.forall₂_same.mpr fun item member =>
        have := List.sizeOf_lt_of_mem member
        known_alike item (closed _ here item member))
  | .closure ⟨identity, params, body, position⟩, here =>
      have below : identity < store.captured.size := gave_out _ here
      .of_closure position
        (Or.inl ⟨⟨_, here, rfl⟩, rfl, below, spares.still_there ⟨_, here, rfl⟩ below⟩)
        (List.forall₂_same.mpr fun param member => ⟨rfl,
          have := List.sizeOf_lt_of_mem member
          known_alike param.default (closed _ here _ (by
            simp only [Store.parts, List.append_assoc, List.mem_append]
            exact Or.inl (List.mem_map_of_mem member)))⟩)
        (fun literal member =>
          have := Tree.literal_smaller member
          known_alike literal (closed _ here _ (by
            simp only [Store.parts, List.append_assoc, List.mem_append]
            exact Or.inr (Or.inl member))))
termination_by value => sizeOf value
decreasing_by
  · simp
    omega
  · rcases param with ⟨name, default⟩
    simp at *
    omega
  · simp
    omega

omit closed gave_out spares in
theorem environment_alike {pairing : Pairing} {env : Environment}
    (each : ∀ value ∈ env.values, value.Alike pairing value) : env.Alike pairing env where
  vars := List.forall₂_same.mpr fun entry member => ⟨rfl, each _ (List.mem_append_left _
    (List.mem_map_of_mem member))⟩
  procedures := by
    refine List.forall₂_same.mpr fun entry member => ⟨rfl, ?_⟩
    have inside : ∀ value ∈ entry.2.values, value.Alike pairing value := fun value here =>
      each value (List.mem_append_right _
        (List.mem_flatMap.mpr ⟨entry.2, List.mem_map_of_mem member, here⟩))
    refine ⟨rfl, List.forall₂_same.mpr fun param given => ⟨rfl, ?_⟩, rfl, fun literal written => ?_,
      rfl⟩
    · exact inside _ (List.mem_append_left _ (List.mem_map_of_mem given))
    · exact inside _ (List.mem_append_right _ written)
  label := rfl
  command := rfl
  script := rfl
  sink := rfl
  depth := rfl

theorem stores_alike (same_flag : after.interrupted = store.interrupted) :
    store.Alike (Pairing.between known store after) after where
  captured {identity identity'} pairs := by
    obtain ⟨⟨closure, here, rfl⟩, rfl, below, -⟩ | ⟨since, rfl, rfl⟩ := pairs
    · have below : closure.identity < store.captured.size := below
      have captured := spares.captured _ ⟨closure, here, rfl⟩ below
      rw [captured]
      have same : store.captured[closure.identity]? = some (store.environmentOf closure) := by
        have found : store.captured[closure.identity]? = some store.captured[closure.identity] :=
          Array.getElem?_eq_getElem below
        unfold Store.environmentOf
        rw [found]
        rfl
      rw [same]
      refine .some (environment_alike fun value member => ?_)
      exact known_alike closed gave_out spares value
        (closed _ here value (List.mem_append_right _ member))
    · have none_before : store.captured[store.captured.size + since]? = none :=
        Array.getElem?_eq_none (Nat.le_add_right _ _)
      have none_after : after.captured[after.captured.size + since]? = none :=
        Array.getElem?_eq_none (Nat.le_add_right _ _)
      show Option.Rel _ store.captured[store.captured.size + since]?
        after.captured[after.captured.size + since]?
      rw [none_before, none_after]
      exact .none
  closures := Numbering.level_at_start _
  resources := Numbering.level_at_start _
  lines _ := ⟨#[], by simp [Pairing.between], by simp [Pairing.between]⟩
  reports := ⟨#[], by simp [Pairing.between], by simp [Pairing.between]⟩
  interrupted := same_flag.symm

end Reach

/-- Whatever a host does between two invocations of a closure with the same arguments: as long as
it changes nothing that closures have captured which the invocation can get at, what the closure
itself has captured is as before, and the two invocations correspond. They end with values that are
alike or with the same error, they write the same lines and report the same errors, and their
environments stay as they are. -/
theorem invocations_isolated {context : Context} {held : Value → Prop} {closure : Closure}
    {arguments : List Value} {world : World} {deeds : List Deed}
    (steady : context.registry.Steady held)
    (gave_out : ∀ value, world.store.InReach held closure arguments value →
      world.store.GaveOut value)
    (spare : ∀ deed ∈ deeds,
      deed.Spares (ClosureOf (world.store.InReach held closure arguments)))
    (same_flag : (world.performAll deeds).store.interrupted = world.store.interrupted)
    (env env' : Environment) :
    let after := (world.performAll deeds).store
    let pairing := Pairing.between (world.store.InReach held closure arguments) world.store after
    after.environmentOf closure = world.store.environmentOf closure ∧
    Correspond (Machine.Alike pairing fun left right => left = env ∧ right = env')
      (EvalError.Alike pairing) (Value.Alike pairing)
      (closure.call context arguments ⟨env, world.store⟩)
      (closure.call context arguments ⟨env', after⟩) := by
  intro after pairing
  have root : ∀ value, value = .closure closure ∨ value ∈ arguments ∨ held value →
      world.store.InReach held closure arguments value :=
    fun value given => ⟨value, given, .refl⟩
  have closed : ∀ value, world.store.InReach held closure arguments value →
      ∀ part ∈ world.store.parts value, world.store.InReach held closure arguments part :=
    fun value ⟨start, given, reached⟩ part member => ⟨start, given, reached.tail member⟩
  have spares : world.store.Spares (ClosureOf (world.store.InReach held closure arguments)) after :=
    World.perform_all_spares spare
  have alike : ∀ value, value = .closure closure ∨ value ∈ arguments ∨ held value →
      value.Alike pairing value :=
    fun value given => known_alike closed gave_out spares value (root value given)
  have known := root _ (Or.inl rfl)
  constructor
  · exact spares.environment_of ⟨closure, known, rfl⟩ (gave_out _ known)
  · have parallel : pairing.Runs (fun left right => left = env ∧ right = env')
        (Value.Alike pairing) (closure.call context arguments) (closure.call context arguments) :=
      closure_call_parallel (steady pairing fun value holds => alike value (Or.inr (Or.inr holds)))
        (alike _ (Or.inl rfl))
        (List.forall₂_same.mpr fun value member => alike value (Or.inr (Or.inl member)))
    exact parallel ⟨env, world.store⟩ ⟨env', after⟩
      ⟨⟨rfl, rfl⟩, stores_alike closed gave_out spares same_flag⟩

def numberHolder : Closure :=
  ⟨0, [], .call SpecialForm.returning.name [.node (.variable "@n") [] .unknown] .unknown, .unknown⟩

/-- The host sets the variable in its own environment, runs a script that assigns it, makes and
changes another closure, and invokes the closure itself. -/
theorem invocations_isolated_of_number :
    let world : World := ⟨[{}], { captured := #[{ vars := ⟨[("@n", .int 1)]⟩ }] }⟩
    let assignment : Tree := .call SpecialForm.assignment.name
      [.node (.variable "@n") [] .unknown, .literal (.int 7) .unknown] .unknown
    let deeds : List Deed := [.change 0 (·.set "@n" (.int 5)), .run 0 .standard assignment,
      .capture 0 [] numberHolder.body .unknown,
      .mutate { numberHolder with identity := 1 } (·.set "@n" (.int 8)),
      .invoke .standard numberHolder [.int 3]]
    let after := (world.performAll deeds).store
    let pairing := Pairing.between (world.store.InReach (fun _ => False) numberHolder [.int 3])
      world.store after
    after.environmentOf numberHolder = world.store.environmentOf numberHolder ∧
    Correspond (Machine.Alike pairing fun left right => left = {} ∧ right = {})
      (EvalError.Alike pairing) (Value.Alike pairing)
      (numberHolder.call .standard [.int 3] ⟨{}, world.store⟩)
      (numberHolder.call .standard [.int 3] ⟨{}, after⟩) := by
  intro world assignment deeds
  have reach : ∀ value, world.store.InReach (fun _ => False) numberHolder [.int 3] value →
      value = .closure numberHolder ∨ value = .int 1 ∨ value = .int 3 := by
    rintro value ⟨root, given, reached⟩
    induction reached with
    | refl =>
        obtain same | given | none := given
        · exact Or.inl same
        · exact Or.inr (Or.inr (List.mem_singleton.mp given))
        · exact none.elim
    | tail _ member induction =>
        obtain rfl | rfl | rfl := induction
        · exact Or.inr (Or.inl (List.mem_singleton.mp member))
        · cases member
        · cases member
  have apart : ¬ ClosureOf (world.store.InReach (fun _ => False) numberHolder [.int 3]) 1 := by
    rintro ⟨closure, known, named⟩
    obtain same | same | same := reach _ known <;> cases same
    cases named
  refine invocations_isolated (Prelude.registry_steady _) ?_ ?_ rfl {} {}
  · intro value known
    obtain rfl | rfl | rfl := reach value known
    · exact Nat.one_pos
    · trivial
    · trivial
  · simp only [deeds, List.forall_mem_cons]
    exact ⟨trivial, Prelude.registry_spares _, trivial, apart, Prelude.registry_spares _, nofun⟩

/-- A closure that gives back the variable `@x`, which it has not captured at first. -/
def cell : Closure :=
  ⟨1, [], .call SpecialForm.returning.name [.node (.variable "@x") [] .unknown] .unknown, .unknown⟩

def relay (callee : Tree) : Tree :=
  .call SpecialForm.returning.name [.call SpecialForm.execution.name [callee] .unknown] .unknown

def failsOnCell : EStateM.Result EvalError Machine Value → Bool
  | .error (.undefinedVariable name _) _ => name == "@x"
  | _ => false

def givesNumber (number : Int64) : EStateM.Result EvalError Machine Value → Bool
  | .ok (.int found) _ => found == number
  | _ => false

/-- The variables that a closure has captured and its defaults lead to no closure at all, and still
a change of what another closure has captured turns the error of an invocation into a value. -/
def CellShows (captured : Environment) (closure : Closure) (arguments : List Value) : Prop :=
  let world : World := ⟨[], { captured := #[captured, {}] }⟩
  let changed := world.perform (.mutate cell (·.set "@x" (.int 5)))
  (∀ root ∈ (world.store.environmentOf closure).vars.items ++ closure.params.map Param.default,
    ∀ callee, ¬ world.store.Reaches root (.closure callee)) ∧
  cell.identity ≠ closure.identity ∧
  changed.store.interrupted = world.store.interrupted ∧
  failsOnCell (closure.call .standard arguments ⟨{}, world.store⟩) = true ∧
  givesNumber 5 (closure.call .standard arguments ⟨{}, changed.store⟩) = true

def lineCounter : Builtin where
  name := "line_count"
  arity := .exactly 0
  run := fun _ _ store => .ok (.int (Int64.ofNat store.output.size)) store

/-- A closure without captures asks a function how many lines there are, before and after a script
that writes one. Nothing is changed through a closure. -/
def CountShows : Prop :=
  let context : Context := { registry := .ofList (lineCounter :: Prelude.builtins) }
  let counter : Closure :=
    ⟨0, [], .call SpecialForm.returning.name [.call "line_count" [] .unknown] .unknown, .unknown⟩
  let world : World := ⟨[{}], { captured := #[{}] }⟩
  let written := world.perform (.run 0 context (.call "msg" [] .unknown))
  written.store.environmentOf counter = world.store.environmentOf counter ∧
  written.store.interrupted = world.store.interrupted ∧
  givesNumber 0 (counter.call context [] ⟨{}, world.store⟩) = true ∧
  givesNumber 1 (counter.call context [] ⟨{}, written.store⟩) = true

/-- It is not enough to spare the closures that captured variables and defaults lead to. Another
closure may be an argument, it may be written in the body, and it may be a default of a procedure
that was captured. And if a function does not do the same on the same arguments, it is not enough
to spare closures at all. -/
theorem changed_closures_show :
    let parameter : Tree := .node (.variable "@f") [] .unknown
    let procedure : Procedure := ⟨"_p", [⟨"@f", .closure cell⟩], relay parameter, .unknown⟩
    CellShows {} ⟨0, [⟨"@f", .null⟩], relay parameter, .unknown⟩ [.closure cell] ∧
    CellShows {} ⟨0, [], relay (.literal (.closure cell) .unknown), .unknown⟩ [] ∧
    CellShows (Environment.define {} procedure) ⟨0, [], .call SpecialForm.returning.name
      [.call "_p" [] .unknown] .unknown, .unknown⟩ [] ∧
    CountShows := by
  refine ⟨⟨fun root member callee reached => ?_, by decide, rfl, by decide +kernel⟩,
    ⟨fun root member => ?_, by decide, rfl, by decide +kernel⟩,
    ⟨fun root member => ?_, by decide, rfl, by decide +kernel⟩,
    ⟨rfl, rfl, by decide +kernel, by decide +kernel⟩⟩
  · obtain rfl : root = .null := List.mem_singleton.mp member
    obtain same | ⟨part, first, -⟩ := Relation.ReflTransGen.cases_head reached
    · cases same
    · cases first
  · cases member
  · cases member

end TreeScript
