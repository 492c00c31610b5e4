import Mathlib.Data.List.Forall2
import TreeScript.Proofs.Evaluation
/-!
# Alike up to bodies

An optimizer rewrites the bodies of procedures and closures, which run much later. So two runs pass
through machines that differ in such bodies and in nothing else. Which bodies may stand for each
other is left open here: it is given by a relation on those of closures and one on those of
procedures.
-/

namespace TreeScript

set_option autoImplicit false

/-- Which bodies may stand for each other. -/
structure Bodies where
  closures : Tree → Tree → Prop
  procedures : Tree → Tree → Prop

mutual

inductive Value.Like (bodies : Bodies) : Value → Value → Prop where
  | void : Value.Like bodies .void .void
  | null : Value.Like bodies .null .null
  | bool (flag : Bool) : Value.Like bodies (.bool flag) (.bool flag)
  | int (number : Int64) : Value.Like bodies (.int number) (.int number)
  | double (number : Float) : Value.Like bodies (.double number) (.double number)
  | string (text : String) : Value.Like bodies (.string text) (.string text)
  | array {items items' : List Value} : ValuesLike bodies items items' →
      Value.Like bodies (.array items) (.array items')
  | closure (identity : Nat) {params params' : List Param} {body body' : Tree}
      (position : Position) : ParamsLike bodies params params' → bodies.closures body body' →
      Value.Like bodies (.closure ⟨identity, params, body, position⟩)
        (.closure ⟨identity, params', body', position⟩)
  | resource (handle : Resource) : Value.Like bodies (.resource handle) (.resource handle)

inductive ValuesLike (bodies : Bodies) : List Value → List Value → Prop where
  | nil : ValuesLike bodies [] []
  | cons {value value' : Value} {rest rest' : List Value} : Value.Like bodies value value' →
      ValuesLike bodies rest rest' → ValuesLike bodies (value :: rest) (value' :: rest')

inductive ParamsLike (bodies : Bodies) : List Param → List Param → Prop where
  | nil : ParamsLike bodies [] []
  | cons (name : String) {default default' : Value} {rest rest' : List Param} :
      Value.Like bodies default default' → ParamsLike bodies rest rest' →
      ParamsLike bodies (⟨name, default⟩ :: rest) (⟨name, default'⟩ :: rest')

end

section Values

variable {bodies : Bodies}

mutual

theorem Value.Like.refl (same : ∀ body, bodies.closures body body) :
    (value : Value) → value.Like bodies value
  | .void => .void
  | .null => .null
  | .bool flag => .bool flag
  | .int number => .int number
  | .double number => .double number
  | .string text => .string text
  | .array items => .array (ValuesLike.refl same items)
  | .closure ⟨identity, params, body, position⟩ =>
      .closure identity position (ParamsLike.refl same params) (same body)
  | .resource handle => .resource handle

theorem ValuesLike.refl (same : ∀ body, bodies.closures body body) :
    (values : List Value) → ValuesLike bodies values values
  | [] => .nil
  | value :: rest => .cons (Value.Like.refl same value) (ValuesLike.refl same rest)

theorem ParamsLike.refl (same : ∀ body, bodies.closures body body) :
    (params : List Param) → ParamsLike bodies params params
  | [] => .nil
  | ⟨name, default⟩ :: rest =>
      .cons name (Value.Like.refl same default) (ParamsLike.refl same rest)

end

mutual

/-- Values are equal if their closures have equal bodies. -/
theorem Value.Like.eq (same : ∀ body body', bodies.closures body body' → body = body') :
    {value value' : Value} → value.Like bodies value' → value = value'
  | _, _, .void | _, _, .null | _, _, .bool _ | _, _, .int _ | _, _, .double _
  | _, _, .string _ | _, _, .resource _ => rfl
  | _, _, .array items => by rw [ValuesLike.eq same items]
  | _, _, .closure _ _ params body => by rw [ParamsLike.eq same params, same _ _ body]

theorem ValuesLike.eq (same : ∀ body body', bodies.closures body body' → body = body') :
    {values values' : List Value} → ValuesLike bodies values values' → values = values'
  | _, _, .nil => rfl
  | _, _, .cons first rest => by rw [Value.Like.eq same first, ValuesLike.eq same rest]

theorem ParamsLike.eq (same : ∀ body body', bodies.closures body body' → body = body') :
    {params params' : List Param} → ParamsLike bodies params params' → params = params'
  | _, _, .nil => rfl
  | _, _, .cons _ first rest => by rw [Value.Like.eq same first, ParamsLike.eq same rest]

end

mutual

theorem Value.Like.mono {bodies' : Bodies}
    (weaker : ∀ body body', bodies.closures body body' → bodies'.closures body body') :
    {value value' : Value} → value.Like bodies value' →
    value.Like bodies' value'
  | _, _, .void => .void
  | _, _, .null => .null
  | _, _, .bool flag => .bool flag
  | _, _, .int number => .int number
  | _, _, .double number => .double number
  | _, _, .string text => .string text
  | _, _, .array items => .array (ValuesLike.mono weaker items)
  | _, _, .closure identity position params body =>
      .closure identity position (ParamsLike.mono weaker params) (weaker _ _ body)
  | _, _, .resource handle => .resource handle

theorem ValuesLike.mono {bodies' : Bodies}
    (weaker : ∀ body body', bodies.closures body body' → bodies'.closures body body') :
    {values values' : List Value} → ValuesLike bodies values values' →
    ValuesLike bodies' values values'
  | _, _, .nil => .nil
  | _, _, .cons first rest => .cons (Value.Like.mono weaker first) (ValuesLike.mono weaker rest)

theorem ParamsLike.mono {bodies' : Bodies}
    (weaker : ∀ body body', bodies.closures body body' → bodies'.closures body body') :
    {params params' : List Param} → ParamsLike bodies params params' →
    ParamsLike bodies' params params'
  | _, _, .nil => .nil
  | _, _, .cons name first rest =>
      .cons name (Value.Like.mono weaker first) (ParamsLike.mono weaker rest)

end

variable {value value' : Value} {values values' : List Value}

theorem Value.Like.truthy (like : value.Like bodies value') :
    value.isTruthy = value'.isTruthy := by
  cases like with
  | array items => cases items <;> rfl
  | _ => rfl

namespace ValuesLike

theorem length (like : ValuesLike bodies values values') : values.length = values'.length := by
  induction values generalizing values' with
  | nil =>
      cases like
      rfl
  | cons value rest induction =>
      cases like with
      | cons first others => rw [List.length_cons, List.length_cons, induction others]

theorem last (like : ValuesLike bodies values values') :
    (values.getLast?.getD .void).Like bodies (values'.getLast?.getD .void) := by
  induction values generalizing values' with
  | nil =>
      cases like
      exact .void
  | cons value rest induction =>
      cases like with
      | cons first others =>
          have later := induction others
          cases others with
          | nil => exact first
          | cons => exact later

theorem drop_last (like : ValuesLike bodies values values') :
    ValuesLike bodies values.dropLast values'.dropLast := by
  induction values generalizing values' with
  | nil =>
      cases like
      exact .nil
  | cons value rest induction =>
      cases like with
      | cons first others =>
          have later := induction others
          cases others with
          | nil => exact .nil
          | cons => exact .cons first later

end ValuesLike

end Values

namespace Bindings

/-- The same names in the same order, bound to items that are related. -/
def Like {Item : Type} (like : Item → Item → Prop) (first second : Bindings Item) : Prop :=
  List.Forall₂ (fun entry entry' => entry.1 = entry'.1 ∧ like entry.2 entry'.2) first.entries
    second.entries

namespace Like

variable {Item : Type} {like : Item → Item → Prop} {first second : Bindings Item}

theorem refl (same : ∀ item, like item item) (bindings : Bindings Item) :
    bindings.Like like bindings :=
  List.forall₂_same.mpr fun entry _ => ⟨rfl, same entry.2⟩

theorem eq (alike : first.Like like second)
    (same : ∀ item item', like item item' → item = item') : first = second := by
  rcases first with ⟨entries⟩
  rcases second with ⟨entries'⟩
  unfold Like at alike
  dsimp only at alike
  rw [Bindings.mk.injEq]
  induction alike with
  | nil => rfl
  | cons entry _ induction => rw [induction, Prod.ext entry.1 (same _ _ entry.2)]

theorem find (alike : first.Like like second) (name : String) :
    Option.Rel like (first.find? name) (second.find? name) := by
  rcases first with ⟨entries⟩
  rcases second with ⟨entries'⟩
  unfold Like at alike
  unfold Bindings.find?
  dsimp only at alike ⊢
  induction alike with
  | nil => exact .none
  | @cons entry entry' rest rest' same others induction =>
      rcases entry with ⟨written, item⟩
      rcases entry' with ⟨written', item'⟩
      rcases same with ⟨rfl, related⟩
      cases found : name == written with
      | true =>
          simp only [List.lookup_cons, found]
          exact .some related
      | false =>
          simp only [List.lookup_cons, found]
          exact induction

theorem contains (alike : first.Like like second) (name : String) :
    first.contains name = second.contains name := by
  unfold Bindings.contains
  have found := find alike name
  generalize first.find? name = item at found
  generalize second.find? name = item' at found
  cases found <;> rfl

theorem put_entry {entries entries' : List (String × Item)}
    (alike : List.Forall₂ (fun entry entry' => entry.1 = entry'.1 ∧ like entry.2 entry'.2) entries
      entries') (name : String) {item item' : Item} (related : like item item') :
    List.Forall₂ (fun entry entry' => entry.1 = entry'.1 ∧ like entry.2 entry'.2)
      (putEntry name item entries) (putEntry name item' entries') := by
  induction alike with
  | nil => exact .cons ⟨rfl, related⟩ .nil
  | @cons entry entry' rest rest' same others induction =>
      unfold putEntry
      rw [← same.1]
      split
      · exact .cons ⟨rfl, related⟩ others
      · exact .cons same induction

theorem put (alike : first.Like like second) (name : String) {item item' : Item}
    (related : like item item') : (first.put name item).Like like (second.put name item') :=
  put_entry alike name related

end Like

end Bindings

structure Procedure.Like (bodies : Bodies) (procedure procedure' : Procedure) : Prop where
  name : procedure.name = procedure'.name
  params : ParamsLike bodies procedure.params procedure'.params
  body : bodies.procedures procedure.body procedure'.body
  position : procedure.position = procedure'.position

structure Environment.Like (bodies : Bodies) (env env' : Environment) : Prop where
  vars : env.vars.Like (Value.Like bodies) env'.vars
  procedures : env.procedures.Like (Procedure.Like bodies) env'.procedures
  label : env.label = env'.label
  command : env.command = env'.command
  script : env.script = env'.script
  sink : env.sink = env'.sink
  depth : env.depth = env'.depth

structure Store.Like (bodies : Bodies) (store store' : Store) : Prop where
  captured : List.Forall₂ (Environment.Like bodies) store.captured.toList store'.captured.toList
  resources : store.resources = store'.resources
  lines : store.lines = store'.lines
  reports : store.reports = store'.reports
  interrupted : store.interrupted = store'.interrupted

structure Machine.Like (bodies : Bodies) (machine machine' : Machine) : Prop where
  env : machine.env.Like bodies machine'.env
  store : machine.store.Like bodies machine'.store

structure Bodies.Reflexive (bodies : Bodies) : Prop where
  closures : ∀ body, bodies.closures body body
  procedures : ∀ body, bodies.procedures body body

section Machines

variable {bodies : Bodies}

theorem Environment.Like.refl (same : bodies.Reflexive) (env : Environment) :
    env.Like bodies env :=
  ⟨.refl (Value.Like.refl same.closures) _,
    .refl (fun _ => ⟨rfl, .refl same.closures _, same.procedures _, rfl⟩) _, rfl, rfl, rfl,
    rfl, rfl⟩

theorem Store.Like.refl (same : bodies.Reflexive) (store : Store) : store.Like bodies store :=
  ⟨List.forall₂_same.mpr fun env _ => .refl same env, rfl, rfl, rfl, rfl⟩

theorem Machine.Like.refl (same : bodies.Reflexive) (machine : Machine) :
    machine.Like bodies machine :=
  ⟨.refl same _, .refl same _⟩

variable {env env' : Environment} {store store' : Store}

namespace Environment.Like

theorem set (like : env.Like bodies env') (name : String) {value value' : Value}
    (related : value.Like bodies value') :
    (env.set name value).Like bodies (env'.set name value') :=
  { like with vars := like.vars.put name related }

theorem define (like : env.Like bodies env') {procedure procedure' : Procedure}
    (related : procedure.Like bodies procedure') :
    (env.define procedure).Like bodies (env'.define procedure') := by
  unfold Environment.define
  rw [← related.name]
  exact { like with procedures := like.procedures.put procedure.name related }

theorem procedure_scope (like : env.Like bodies env') :
    env.procedureScope.Like bodies env'.procedureScope :=
  { like with vars := .nil }

theorem at_depth (like : env.Like bodies env') (depth : Nat) :
    Environment.Like bodies { env with depth } { env' with depth } :=
  { like with depth := rfl }

end Environment.Like

theorem Store.Like.emit (like : store.Like bodies store') (line : String) {sink sink' : Sink}
    (same : sink = sink') : (store.emit line sink).Like bodies (store'.emit line sink') := by
  subst same
  have lines : (store.emit line sink).lines = (store'.emit line sink).lines := by
    funext other
    rw [Store.lines_emit, Store.lines_emit, like.lines]
  exact { like with lines }

theorem Store.Like.environment_of (like : store.Like bodies store') {closure closure' : Closure}
    (same : closure.identity = closure'.identity) :
    (store.environmentOf closure).Like bodies (store'.environmentOf closure') := by
  have lookup : ∀ (envs envs' : List Environment) (index : Nat),
      List.Forall₂ (Environment.Like bodies) envs envs' →
      (envs[index]?.getD {}).Like bodies (envs'[index]?.getD {}) := by
    intro envs envs' index alike
    induction alike generalizing index with
    | nil => exact ⟨.nil, .nil, rfl, rfl, rfl, rfl, rfl⟩
    | cons first others induction =>
        cases index with
        | zero => exact first
        | succ index => exact induction index
  unfold Store.environmentOf
  rw [← same, ← Array.getElem?_toList, ← Array.getElem?_toList]
  exact lookup _ _ _ like.captured

end Machines

section Copies

variable {bodies : Bodies} {Item Result : Type}

/-- Two copies that come to the same, up to bodies, and give out the same identities. -/
inductive Copied (like : Item → Item → Prop) :
    EStateM.Result CopyError Nat Item → EStateM.Result CopyError Nat Item → Prop where
  | ok (fresh : Nat) {item item' : Item} : like item item' →
      Copied like (.ok item fresh) (.ok item' fresh)
  | error (error : CopyError) (fresh : Nat) : Copied like (.error error fresh) (.error error fresh)

theorem Copied.bind {like : Item → Item → Prop} {like' : Result → Result → Prop}
    {action action' : Copying Item} {next next' : Item → Copying Result} {fresh : Nat}
    (first : Copied like (action fresh) (action' fresh))
    (others : ∀ item item' fresh, like item item' → Copied like' (next item fresh)
      (next' item' fresh)) :
    Copied like' ((action >>= next) fresh) ((action' >>= next') fresh) := by
  rw [bind_apply, bind_apply]
  cases outcome : action fresh with
  | ok item fresh' =>
      cases outcome' : action' fresh with
      | ok item' fresh'' =>
          rw [outcome, outcome'] at first
          cases first with
          | ok _ related => exact others item item' _ related
      | error error fresh'' =>
          rw [outcome, outcome'] at first
          cases first
  | error error fresh' =>
      cases outcome' : action' fresh with
      | ok item' fresh'' =>
          rw [outcome, outcome'] at first
          cases first
      | error error' fresh'' =>
          rw [outcome, outcome'] at first
          cases first
          exact .error _ _

mutual

theorem Value.Like.holds_resource : {value value' : Value} → value.Like bodies value' →
    value.holdsResource = value'.holdsResource
  | _, _, .void | _, _, .null | _, _, .bool _ | _, _, .int _ | _, _, .double _
  | _, _, .string _ | _, _, .resource _ | _, _, .closure _ _ _ _ => rfl
  | _, _, .array items => ValuesLike.any_holds_resource items

theorem ValuesLike.any_holds_resource : {values values' : List Value} →
    ValuesLike bodies values values' →
    Value.anyHoldsResource values = Value.anyHoldsResource values'
  | _, _, .nil => rfl
  | _, _, .cons first rest => by
      rw [Value.anyHoldsResource, Value.anyHoldsResource, Value.Like.holds_resource first,
        ValuesLike.any_holds_resource rest]

end

mutual

theorem Value.Like.copy : {value value' : Value} → value.Like bodies value' → (fresh : Nat) →
    Copied (Value.Like bodies) (value.copy fresh) (value'.copy fresh)
  | _, _, .void, fresh => .ok fresh .void
  | _, _, .null, fresh => .ok fresh .null
  | _, _, .bool flag, fresh => .ok fresh (.bool flag)
  | _, _, .int number, fresh => .ok fresh (.int number)
  | _, _, .double number, fresh => .ok fresh (.double number)
  | _, _, .string text, fresh => .ok fresh (.string text)
  | _, _, .closure identity position params body, fresh =>
      .ok fresh (.closure identity position params body)
  | _, _, .resource handle, fresh => by
      simp only [Value.copy]
      have duplicated : Copied Eq (handle.duplicate fresh) (handle.duplicate fresh) := by
        cases handle.duplicate fresh with
        | ok copied after => exact .ok after rfl
        | error error after => exact .error error after
      apply duplicated.bind
      rintro copied _ after rfl
      exact .ok after (.resource copied)
  | .array items, .array items', .array like, fresh => by
      simp only [Value.copy, like.any_holds_resource]
      cases Value.anyHoldsResource items' with
      | true =>
          apply Copied.bind (ValuesLike.copy like fresh)
          exact fun _ _ after copied => .ok after (.array copied)
      | false => exact .ok fresh (.array like)

theorem ValuesLike.copy : {values values' : List Value} → ValuesLike bodies values values' →
    (fresh : Nat) → Copied (ValuesLike bodies) (Value.copyItems values fresh)
      (Value.copyItems values' fresh)
  | _, _, .nil, fresh => .ok fresh .nil
  | _, _, .cons first rest, fresh => by
      simp only [Value.copyItems]
      apply Copied.bind (Value.Like.copy first fresh)
      intro item item' after copied
      exact Copied.bind (ValuesLike.copy rest after) fun _ _ final others =>
        .ok final (.cons copied others)

end

theorem copy_entries_like {entries entries' : List (String × Value)}
    (alike : List.Forall₂ (fun entry entry' => entry.1 = entry'.1 ∧ entry.2.Like bodies entry'.2)
      entries entries') (fresh : Nat) :
    Copied (List.Forall₂ fun entry entry' => entry.1 = entry'.1 ∧ entry.2.Like bodies entry'.2)
      (copyEntries entries fresh) (copyEntries entries' fresh) := by
  induction alike generalizing fresh with
  | nil => exact .ok fresh .nil
  | @cons entry entry' rest rest' same others induction =>
      rcases entry with ⟨name, value⟩
      rcases entry' with ⟨name', value'⟩
      rcases same with ⟨rfl, related⟩
      simp only [copyEntries]
      apply Copied.bind (related.copy fresh)
      intro item item' after copied
      exact Copied.bind (induction after) fun _ _ final later =>
        .ok final (.cons ⟨rfl, copied⟩ later)

theorem Environment.Like.copy {env env' : Environment} (like : env.Like bodies env')
    (fresh : Nat) : Copied (Environment.Like bodies) (env.copy fresh) (env'.copy fresh) :=
  Copied.bind (copy_entries_like like.vars fresh) fun _ _ after copied =>
    .ok after { like with vars := copied }

theorem bind_params_like {params params' : List Param} (like : ParamsLike bodies params params')
    {arguments arguments' : List Value} (given : ValuesLike bodies arguments arguments')
    {scope scope' : Environment} (scopes : scope.Like bodies scope') (fresh : Nat) :
    Copied (Environment.Like bodies) (Environment.bindParams params arguments scope fresh)
      (Environment.bindParams params' arguments' scope' fresh) := by
  induction params generalizing params' arguments arguments' scope scope' fresh with
  | nil =>
      cases like
      exact .ok fresh scopes
  | cons param rest induction =>
      cases like with
      | cons name default others =>
          cases given with
          | cons argument later =>
              exact induction others later (scopes.set name argument) fresh
          | nil =>
              apply Copied.bind (default.copy fresh)
              intro value value' after copied
              exact induction others .nil (scopes.set name copied) after

theorem bind_arguments_like {params params' : List Param} (like : ParamsLike bodies params params')
    {arguments arguments' : List Value} (given : ValuesLike bodies arguments arguments')
    {scope scope' : Environment} (scopes : scope.Like bodies scope') (fresh : Nat) :
    Copied (Environment.Like bodies) (Environment.bindArguments params arguments scope fresh)
      (Environment.bindArguments params' arguments' scope' fresh) :=
  Copied.bind (bind_params_like like given scopes fresh) fun _ _ after bound =>
    .ok after (bound.set argumentsVariable (.array given))

end Copies

end TreeScript
