import TreeScript.Proofs.Standard
/-!
# Where code comes from

A script gets at code in three ways: through the closures in its values, through the procedures of
its environment, and through what closures have captured. This module follows a property of code
through all of them. Copying a value or an environment brings in no code, and neither do the
functions that a script calls if they give back nothing but what they are given.
-/

namespace TreeScript

set_option autoImplicit false

/-- Which closures and procedures a script may get at. -/
structure Code where
  closure : Closure → Prop
  procedure : Procedure → Prop

namespace Code

def nothing : Code := ⟨fun _ => False, fun _ => False⟩

end Code

/-- All closures in the value are such code, also those in its arrays and in the defaults of its
parameters. -/
inductive Value.Within (code : Code) : Value → Prop where
  | basic {value : Value} : value.isBasic = true → Within code value
  | resource (handle : Resource) : Within code (.resource handle)
  | array {items : List Value} : (∀ item ∈ items, Within code item) → Within code (.array items)
  | closure {closure : Closure} : code.closure closure →
      (∀ param ∈ closure.params, Within code param.default) → Within code (.closure closure)

namespace Value

mutual

def holdsClosure : Value → Bool
  | closure _ => true
  | array items => anyHoldsClosure items
  | _ => false

def anyHoldsClosure : List Value → Bool
  | [] => false
  | item :: rest => holdsClosure item || anyHoldsClosure rest

end

mutual

theorem within_of_no_closure {code : Code} : (value : Value) → value.holdsClosure = false →
    value.Within code
  | void, _ | null, _ | bool _, _ | int _, _ | double _, _ | string _, _ => .basic rfl
  | resource handle, _ => .resource handle
  | closure _, free => by cases free
  | array items, free => .array (items_within_of_no_closure items free)

theorem items_within_of_no_closure {code : Code} : (items : List Value) →
    anyHoldsClosure items = false → ∀ item ∈ items, item.Within code
  | [], _ => nofun
  | first :: rest, free => by
      rw [anyHoldsClosure, Bool.or_eq_false_iff] at free
      rw [List.forall_mem_cons]
      exact ⟨within_of_no_closure first free.1, items_within_of_no_closure rest free.2⟩

end

end Value

structure Environment.Within (code : Code) (env : Environment) : Prop where
  vars : ∀ entry ∈ env.vars.entries, entry.2.Within code
  procedures : ∀ entry ∈ env.procedures.entries,
    code.procedure entry.2 ∧ ∀ param ∈ entry.2.params, param.default.Within code

/-- Such closures own what they have captured, and that is within the code too. -/
def Store.Backs (code : Code) (store : Store) : Prop :=
  ∀ closure, code.closure closure →
    ∃ env, store.captured[closure.identity]? = some env ∧ env.Within code

namespace Value.Within

variable {code code' : Code} {value : Value}

theorem items {items : List Value} (within : (Value.array items).Within code) :
    ∀ item ∈ items, item.Within code := by
  cases within with
  | basic isBasic => cases isBasic
  | array each => exact each

theorem callee {closure : Closure} (within : (Value.closure closure).Within code) :
    code.closure closure ∧ ∀ param ∈ closure.params, param.default.Within code := by
  cases within with
  | basic isBasic => cases isBasic
  | closure known defaults => exact ⟨known, defaults⟩

theorem hereditary (code : Code) : Value.Hereditary (Value.Within code) where
  basic _ isBasic := .basic isBasic
  array _ := ⟨items, array⟩

theorem mono (more : ∀ closure, code.closure closure → code'.closure closure)
    (within : value.Within code) : value.Within code' := by
  induction within with
  | basic isBasic => exact .basic isBasic
  | resource handle => exact .resource handle
  | array _ each => exact .array each
  | closure known _ defaults => exact .closure (more _ known) defaults

theorem nothing_mono (within : value.Within .nothing) : value.Within code :=
  within.mono fun _ (none : False) => none.elim

end Value.Within

section Copies

variable {code : Code} {fresh fresh' : Nat}

theorem copy_items_within {items items' : List Value}
    (each : ∀ item ∈ items, ∀ {fresh fresh' copied},
      item.copy fresh = .ok copied fresh' → copied.Within code)
    (done : Value.copyItems items fresh = .ok items' fresh') :
    ∀ item ∈ items', item.Within code := by
  induction items generalizing fresh items' with
  | nil =>
      cases done
      exact nofun
  | cons first rest induction =>
      rw [Value.copyItems] at done
      rcases bind_eq_ok done with ⟨copied, between, one, others⟩
      rcases bind_eq_ok others with ⟨rest', last, later, built⟩
      cases built
      rw [List.forall_mem_cons]
      exact ⟨each first (by simp) one,
        induction (fun item member => each item (by simp [member])) later⟩

theorem Value.Within.copy {value copied : Value} (within : value.Within code)
    (done : value.copy fresh = .ok copied fresh') : copied.Within code := by
  induction within generalizing fresh fresh' copied with
  | @basic value isBasic =>
      cases value <;> first | (cases isBasic; done) | (cases done; exact .basic rfl)
  | resource handle =>
      rcases bind_eq_ok done with ⟨duplicated, between, -, built⟩
      cases built
      exact .resource duplicated
  | @array items each induction =>
      rw [Value.copy] at done
      split at done
      · rcases bind_eq_ok done with ⟨items', between, copies, built⟩
        cases built
        exact .array (copy_items_within (fun item member _ _ _ => induction item member) copies)
      · cases done
        exact .array each
  | closure known defaults =>
      cases done
      exact .closure known defaults

theorem copy_entries_within {entries entries' : List (String × Value)}
    (within : ∀ entry ∈ entries, entry.2.Within code)
    (done : copyEntries entries fresh = .ok entries' fresh') :
    ∀ entry ∈ entries', entry.2.Within code := by
  induction entries generalizing fresh entries' with
  | nil =>
      cases done
      exact nofun
  | cons first rest induction =>
      rcases first with ⟨name, value⟩
      rw [List.forall_mem_cons] at within
      rw [copyEntries] at done
      rcases bind_eq_ok done with ⟨copied, between, one, others⟩
      rcases bind_eq_ok others with ⟨rest', last, later, built⟩
      cases built
      rw [List.forall_mem_cons]
      exact ⟨within.1.copy one, induction within.2 later⟩

end Copies

theorem mem_put_entry {Item : Type} {name : String} {item : Item} {entry : String × Item}
    {entries : List (String × Item)} (member : entry ∈ Bindings.putEntry name item entries) :
    entry = (name, item) ∨ entry ∈ entries := by
  induction entries with
  | nil => exact Or.inl (List.mem_singleton.mp member)
  | cons first rest induction =>
      rw [Bindings.putEntry] at member
      split at member
      · exact (List.mem_cons.mp member).imp_right (List.mem_cons_of_mem first)
      · rcases List.mem_cons.mp member with rfl | later
        · exact Or.inr List.mem_cons_self
        · exact (induction later).imp_right (List.mem_cons_of_mem first)

theorem mem_of_find {Item : Type} {bindings : Bindings Item} {name : String} {item : Item}
    (found : bindings.find? name = some item) : (name, item) ∈ bindings.entries := by
  rcases List.lookup_eq_some_iff.mp found with ⟨before, after, split, -⟩
  rw [split]
  exact List.mem_append_right before List.mem_cons_self

namespace Environment.Within

variable {code code' : Code} {env copied : Environment} {name : String} {value : Value}
  {fresh fresh' : Nat}

theorem mono (closures : ∀ closure, code.closure closure → code'.closure closure)
    (procedures : ∀ procedure, code.procedure procedure → code'.procedure procedure)
    (within : env.Within code) : env.Within code' where
  vars entry member := (within.vars entry member).mono closures
  procedures entry member := by
    rcases within.procedures entry member with ⟨known, defaults⟩
    exact ⟨procedures _ known, fun param here => (defaults param here).mono closures⟩

theorem get (within : env.Within code) (found : env.get? name = some value) :
    value.Within code :=
  within.vars _ (mem_of_find found)

theorem procedure {procedure : Procedure} (within : env.Within code)
    (found : env.procedure? name = some procedure) :
    code.procedure procedure ∧ ∀ param ∈ procedure.params, param.default.Within code :=
  within.procedures _ (mem_of_find found)

theorem set (within : env.Within code) (given : value.Within code) :
    (env.set name value).Within code where
  vars entry member := by
    rcases mem_put_entry member with rfl | old
    · exact given
    · exact within.vars entry old
  procedures := within.procedures

theorem define {procedure : Procedure} (within : env.Within code)
    (known : code.procedure procedure)
    (defaults : ∀ param ∈ procedure.params, param.default.Within code) :
    (env.define procedure).Within code where
  vars := within.vars
  procedures entry member := by
    rcases mem_put_entry member with rfl | old
    · exact ⟨known, defaults⟩
    · exact within.procedures entry old

theorem procedure_scope (within : env.Within code) : env.procedureScope.Within code :=
  ⟨nofun, within.procedures⟩

theorem at_depth (within : env.Within code) (depth : Nat) :
    { env with depth }.Within code :=
  ⟨within.vars, within.procedures⟩

theorem copy (within : env.Within code) (done : env.copy fresh = .ok copied fresh') :
    copied.Within code := by
  unfold Environment.copy at done
  rcases bind_eq_ok done with ⟨entries, between, copies, built⟩
  cases built
  exact ⟨copy_entries_within within.vars copies, within.procedures⟩

theorem bind_params {params : List Param} {arguments : List Value} {bound : Environment}
    (within : env.Within code) (defaults : ∀ param ∈ params, param.default.Within code)
    (given : ∀ argument ∈ arguments, argument.Within code)
    (done : bindParams params arguments env fresh = .ok bound fresh') : bound.Within code := by
  induction params generalizing arguments env fresh with
  | nil =>
      rw [bindParams] at done
      cases done
      exact within
  | cons param params induction =>
      rw [List.forall_mem_cons] at defaults
      cases arguments with
      | nil =>
          rw [bindParams] at done
          rcases bind_eq_ok done with ⟨value, between, copied, rest⟩
          exact induction (within.set (defaults.1.copy copied)) defaults.2 given rest
      | cons argument arguments =>
          rw [List.forall_mem_cons] at given
          rw [bindParams] at done
          exact induction (within.set given.1) defaults.2 given.2 done

theorem bind_arguments {params : List Param} {arguments : List Value} {bound : Environment}
    (within : env.Within code) (defaults : ∀ param ∈ params, param.default.Within code)
    (given : ∀ argument ∈ arguments, argument.Within code)
    (done : bindArguments params arguments env fresh = .ok bound fresh') : bound.Within code := by
  unfold bindArguments at done
  rcases bind_eq_ok done with ⟨entered, between, first, built⟩
  cases built
  exact (within.bind_params defaults given first).set (.array given)

end Environment.Within

section Functions

/-- A function gives back no closures but those that it finds in its arguments or in the
environment of its call, and puts no other code into what closures have captured. -/
def Builtin.BringsNoCode (builtin : Builtin) : Prop :=
  ∀ (code : Code) position catalogue (env : Option Environment) arguments (store : Store)
    value after,
    (∀ known, env = some known → known.Within code) →
    (∀ argument ∈ arguments, argument.Within code) → store.Backs code →
    builtin.run ⟨position, env, catalogue⟩ arguments store = .ok value after →
      value.Within code ∧ after.Backs code

def Registry.BringsNoCode (registry : Registry) : Prop :=
  ∀ name builtin, registry.find? name = some builtin → builtin.BringsNoCode

theorem Builtin.brings_no_code_of_reader {builtin : Builtin}
    (result : CallSite → List Value → Except Fault Value)
    (reads : ∀ site values, builtin.run site values = Action.ofExcept (result site values))
    (finds : ∀ (code : Code) position catalogue (env : Option Environment) arguments value,
      (∀ known, env = some known → known.Within code) →
      (∀ argument ∈ arguments, argument.Within code) →
      result ⟨position, env, catalogue⟩ arguments = .ok value → value.Within code) :
    builtin.BringsNoCode := by
  intro code position catalogue env arguments store value after known given backs done
  rw [reads] at done
  have found := Action.of_except_ok done
  have kept : after = store := by
    rw [found] at done
    cases done
    rfl
  subst kept
  exact ⟨finds code position catalogue env arguments value known given found, backs⟩

namespace Prelude

/-- What `reflect_pull` reads of the environment is a variable, or holds nothing. -/
theorem answer_within {code : Code} {env : Environment} (within : env.Within code)
    {position : Position} {query : Query} {value : Value}
    (done : query.answer env position = .ok value) : value.Within code := by
  have text_or_null : ∀ text : Option String,
      (Value.ofOption (text.map Value.string)).Within code := by
    intro text
    cases text <;> exact .basic rfl
  cases query with
  | label | command =>
      cases done
      exact text_or_null _
  | variableNames =>
      cases done
      refine .array fun item member => ?_
      rcases List.mem_map.mp member with ⟨name, -, rfl⟩
      exact .basic rfl
  | «variable» name =>
      simp only [Query.answer] at done
      split at done
      · rename_i found
        cases done
        exact within.get found
      · cases done
  | line | column | file =>
      cases done
      exact .basic rfl

theorem builtins_bring_no_code : ∀ builtin ∈ builtins, builtin.BringsNoCode := by
  apply builtins_hold
  · intro name arity isPure docs function _ passive
    apply Builtin.brings_no_code_of_reader (fun _ => function) fun _ _ => rfl
    exact fun code _ _ _ arguments value _ => passive _ (Value.Within.hereditary code) _ _
  · intro docs code position catalogue env arguments store value after known given backs done
    simp only [message] at done
    split at done
    · cases done
      exact ⟨.basic rfl, backs⟩
    · cases done
  · intro docs
    apply Builtin.brings_no_code_of_reader reflectPull fun _ _ => rfl
    intro code position catalogue env arguments value known given done
    rcases except_bind_ok done with ⟨env', required, done⟩
    rcases except_bind_ok done with ⟨name, -, done⟩
    have within : env'.Within code := by
      cases env with
      | none => cases required
      | some env =>
          cases required
          exact known _ rfl
    split at done
    · exact answer_within within done
    · cases done
  · intro docs
    apply Builtin.brings_no_code_of_reader reflectDocs fun _ _ => rfl
    intro code position catalogue env arguments value known given done
    rcases except_bind_ok done with ⟨⟨element, fieldName⟩, -, done⟩
    rcases except_bind_ok done with ⟨field, -, done⟩
    dsimp only at done
    split at done
    · rcases except_bind_ok done with ⟨env', -, done⟩
      split at done <;> cases done
      exact .basic rfl
    · rcases except_bind_ok done with ⟨env', -, done⟩
      split at done <;> cases done
      exact .basic rfl
    · split at done
      · rcases except_bind_ok done with ⟨part, -, built⟩
        cases built
        exact .basic rfl
      · cases done

theorem registry_brings_no_code : registry.BringsNoCode := fun _ builtin found =>
  builtins_bring_no_code builtin (Registry.find_of_list found).1

end Prelude

end Functions

end TreeScript
