import TreeScript.Program
import TreeScript.Proofs.Conformance
import TreeScript.Proofs.Visiting
/-!
# Functions that scripts may be optimized with

What the optimizer relies on is a matter of each function by itself. The functions of the prelude
all keep to it.
-/

namespace TreeScript

set_option autoImplicit false

structure Builtin.Reliable (builtin : Builtin) : Prop where
  apart : builtin.isPure = true →
    SpecialForm.ofName? builtin.name = none ∧ Tree.isProcedureName builtin.name = false
  faithful : ∀ catalogue nodes, nodes.all Tree.isConstant = true →
    builtin.isFoldable nodes = true → ∃ result, ∀ position env store,
      builtin.run ⟨position, env, catalogue⟩ (nodes.filterMap Tree.value?) store =
        Action.ofExcept result store
  plain : ∀ position catalogue values store value store',
    (∀ value ∈ values, value.holdsResource = false) →
    builtin.run ⟨position, none, catalogue⟩ values store = .ok value store' →
      value.holdsResource = false
  quiet : ∀ site arguments (store : Store), store.interrupted = false →
    match builtin.run site arguments store with
    | .ok _ after | .error _ after => after.interrupted = false

/-- A reliable function that does not look into the bodies of procedures. -/
structure Builtin.Discreet (builtin : Builtin) : Prop extends builtin.Reliable where
  ignores : ∀ (relation : Tree → Tree → Prop) position catalogue (env env' : Environment) arguments
    (store store' : Store), env.Like ⟨Eq, relation⟩ env' → store.Like ⟨Eq, relation⟩ store' →
      Concurs ⟨Eq, relation⟩ (builtin.run ⟨position, some env, catalogue⟩ arguments store)
        (builtin.run ⟨position, some env', catalogue⟩ arguments store')

namespace Registry

theorem find_registered {builtins : List Builtin} {registry : Registry} {name : String}
    {builtin : Builtin} (found : (builtins.foldl register registry).find? name = some builtin) :
    registry.find? name = some builtin ∨ builtin ∈ builtins ∧ builtin.name = name := by
  induction builtins generalizing registry with
  | nil => exact Or.inl found
  | cons first rest induction =>
      rcases induction found with here | ⟨later, named⟩
      · rw [find?_register] at here
        split at here
        · rename_i same
          cases here
          exact Or.inr ⟨List.mem_cons_self, same.symm⟩
        · exact Or.inl here
      · exact Or.inr ⟨List.mem_cons_of_mem _ later, named⟩

theorem find_of_list {builtins : List Builtin} {name : String} {builtin : Builtin}
    (found : (ofList builtins).find? name = some builtin) :
    builtin ∈ builtins ∧ builtin.name = name := by
  rcases find_registered found with absent | located
  · cases absent
  · exact located

variable {builtins : List Builtin}

theorem of_list_ignores (discreet : ∀ builtin ∈ builtins, builtin.Discreet) :
    (ofList builtins).IgnoresProcedures := by
  intro relation _ name builtin found position env env' arguments arguments' store store' like alike
    likeStore
  have same : arguments = arguments' := alike.eq fun _ _ same => same
  subst same
  exact (discreet builtin (find_of_list found).1).ignores relation position _ env env' arguments
    store store' like likeStore

variable (reliable : ∀ builtin ∈ builtins, builtin.Reliable)

include reliable

theorem of_list_apart : (ofList builtins).KeepsNamesApart := by
  intro name isPure
  rcases (is_pure_iff _ _).mp isPure with ⟨builtin, found, pure⟩
  rcases find_of_list found with ⟨member, rfl⟩
  exact (reliable builtin member).apart pure

theorem of_list_faithful : (ofList builtins).FoldsFaithfully := fun _ builtin nodes found =>
  (reliable builtin (find_of_list found).1).faithful _ nodes

theorem of_list_plain : (ofList builtins).MakesNoResources :=
  fun _ builtin position values store value store' found =>
    (reliable builtin (find_of_list found).1).plain position _ values store value store'

theorem of_list_quiet : (ofList builtins).NeverInterrupts := fun _ builtin found =>
  (reliable builtin (find_of_list found).1).quiet

end Registry

section Results

variable {result : Except Fault Value} {value : Value} {store store' : Store}

theorem Action.of_except_ok (done : Action.ofExcept result store = .ok value store') :
    result = .ok value := by
  unfold Action.ofExcept at done
  split at done
  · cases done
    rfl
  · cases done

theorem Action.of_except_quiet (result : Except Fault Value) (clear : store.interrupted = false) :
    match Action.ofExcept result store with
    | .ok _ after | .error _ after => after.interrupted = false := by
  unfold Action.ofExcept
  cases result <;> exact clear

theorem Concurs.of_except {relation : Tree → Tree → Prop} (result : Except Fault Value)
    (like : store.Like ⟨Eq, relation⟩ store') :
    Concurs ⟨Eq, relation⟩ (Action.ofExcept result store) (Action.ofExcept result store') := by
  cases result with
  | ok value => exact .ok (.refl (fun _ => rfl) value) like
  | error fault => exact .error fault like

end Results

theorem Builtin.reliable_of_reader {builtin : Builtin}
    (result : CallSite → List Value → Except Fault Value)
    (reads : ∀ site values, builtin.run site values = Action.ofExcept (result site values))
    (apart : builtin.isPure = true →
      SpecialForm.ofName? builtin.name = none ∧ Tree.isProcedureName builtin.name = false)
    (faithful : ∀ catalogue nodes, nodes.all Tree.isConstant = true →
      builtin.isFoldable nodes = true → ∃ outcome, ∀ position env,
        result ⟨position, env, catalogue⟩ (nodes.filterMap Tree.value?) = outcome)
    (plain : ∀ position catalogue values value, (∀ value ∈ values, value.holdsResource = false) →
      result ⟨position, none, catalogue⟩ values = .ok value → value.holdsResource = false) :
    builtin.Reliable := by
  refine ⟨apart, ?_, ?_, ?_⟩
  · intro catalogue nodes constant foldable
    rcases faithful catalogue nodes constant foldable with ⟨outcome, same⟩
    exact ⟨outcome, fun position env store => by rw [reads, same]⟩
  · intro position catalogue values store value store' given done
    rw [reads] at done
    exact plain position catalogue values value given (Action.of_except_ok done)
  · intro site arguments store clear
    rw [reads]
    exact Action.of_except_quiet _ clear

theorem Builtin.Reliable.discreet {builtin : Builtin} (reliable : builtin.Reliable)
    (result : CallSite → List Value → Except Fault Value)
    (reads : ∀ site values, builtin.run site values = Action.ofExcept (result site values))
    (ignores : ∀ (relation : Tree → Tree → Prop) position catalogue (env env' : Environment) values,
      env.Like ⟨Eq, relation⟩ env' →
        result ⟨position, some env, catalogue⟩ values =
          result ⟨position, some env', catalogue⟩ values) : builtin.Discreet where
  toReliable := reliable
  ignores relation position catalogue env env' arguments store store' like likeStore := by
    rw [reads, reads, ignores relation position catalogue env env' arguments like]
    exact Concurs.of_except _ likeStore

namespace Value

def isBasic : Value → Bool
  | void | null | bool _ | int _ | double _ | string _ => true
  | _ => false

/-- What holds of all values that hold nothing, and of an array when it holds of its items. -/
structure Hereditary (holds : Value → Prop) : Prop where
  basic : ∀ value, value.isBasic = true → holds value
  array : ∀ items, holds (array items) ↔ ∀ item ∈ items, holds item

theorem hereditary_no_resource : Hereditary fun value => value.holdsResource = false where
  basic value isBasic := by cases value <;> first | rfl | cases isBasic
  array items := by rw [holdsResource, anyHoldsResource_eq_any, List.any_eq_false]; simp

end Value

namespace Prelude

/-- A function that gives back a resource only if it is given one. -/
def Plain (function : List Value → Except Fault Value) : Prop :=
  ∀ values value, (∀ value ∈ values, value.holdsResource = false) →
    function values = .ok value → value.holdsResource = false

/-- A function that gives back nothing but values that hold nothing, its arguments, and what is in
their arrays. -/
def Passive (function : List Value → Except Fault Value) : Prop :=
  ∀ holds : Value → Prop, Value.Hereditary holds → ∀ values value, (∀ value ∈ values, holds value) →
    function values = .ok value → holds value

theorem Passive.plain {function : List Value → Except Fault Value} (passive : Passive function) :
    Plain function :=
  passive _ Value.hereditary_no_resource

section Values

theorem except_ok_bind {Item Result : Type} (item : Item) (next : Item → Except Fault Result) :
    (Except.ok item >>= next) = next item := rfl

theorem number_basic (number : Number) : number.toValue.isBasic = true := by
  cases number <;> rfl

theorem two_arguments_mem {values : List Value} {first second : Value}
    (done : twoArguments values = .ok (first, second)) : first ∈ values := by
  rcases values with _ | ⟨one, _ | ⟨two, rest⟩⟩
  · cases done
  · cases done
  · cases done
    exact List.mem_cons_self

theorem fold_passive (operation needed : String) (step : Number → Number → Except Fault Number) :
    Passive (fold operation needed step) := by
  intro holds hereditary values value _ done
  cases values with
  | nil => cases done
  | cons first rest =>
      rcases except_bind_ok done with ⟨start, -, done⟩
      rcases except_bind_ok done with ⟨total, -, built⟩
      cases built
      exact hereditary.basic _ (number_basic total)

theorem modulo_passive : Passive modulo := by
  intro holds hereditary values value _ done
  rcases except_bind_ok done with ⟨⟨first, second⟩, -, done⟩
  rcases except_bind_ok done with ⟨a, -, done⟩
  rcases except_bind_ok done with ⟨b, -, done⟩
  rcases except_bind_ok done with ⟨rest, -, built⟩
  cases built
  exact hereditary.basic _ (number_basic rest)

theorem compare_passive (order : Float → Float → Bool) : Passive (compare order) := by
  intro holds hereditary values value _ done
  rcases except_bind_ok done with ⟨⟨first, second⟩, -, done⟩
  rcases except_bind_ok done with ⟨a, -, done⟩
  rcases except_bind_ok done with ⟨b, -, built⟩
  cases built
  exact hereditary.basic _ rfl

theorem equals_passive : Passive equals := by
  intro holds hereditary values value _ done
  rcases except_bind_ok done with ⟨⟨first, second⟩, -, built⟩
  cases built
  exact hereditary.basic _ rfl

theorem concat_passive : Passive concat := by
  rintro holds hereditary values value _ ⟨⟩
  exact hereditary.basic _ rfl

theorem negate_passive : Passive negate := by
  intro holds hereditary values value _ done
  rcases except_bind_ok done with ⟨argument, -, built⟩
  cases built
  exact hereditary.basic _ rfl

theorem type_of_passive : Passive typeOf := by
  intro holds hereditary values value _ done
  rcases except_bind_ok done with ⟨argument, -, built⟩
  cases built
  exact hereditary.basic _ rfl

theorem array_size_passive : Passive arraySize := by
  intro holds hereditary values value _ done
  rcases except_bind_ok done with ⟨argument, -, done⟩
  rcases except_bind_ok done with ⟨items, -, built⟩
  cases built
  exact hereditary.basic _ rfl

theorem make_array_passive : Passive makeArray := by
  rintro holds hereditary values value given ⟨⟩
  exact (hereditary.array values).mpr given

theorem pass_on_passive : Passive passOn := by
  rintro holds hereditary values value given ⟨⟩
  cases values with
  | nil => exact hereditary.basic _ rfl
  | cons first rest => exact given first List.mem_cons_self

theorem element_mem {items : List Value} {index : Int} {item : Value}
    (found : (if index < 0 then none else items[index.toNat]?) = some item) : item ∈ items := by
  split at found
  · cases found
  · exact List.mem_of_getElem? found

theorem array_get_passive : Passive arrayGet := by
  intro holds hereditary values value given done
  rcases except_bind_ok done with ⟨⟨array, position⟩, taken, done⟩
  rcases except_bind_ok done with ⟨items, isArray, done⟩
  have whole := given array (two_arguments_mem taken)
  have each : ∀ item ∈ items, holds item := by
    unfold requireArray at isArray
    split at isArray
    · rename_i found
      cases isArray
      cases array <;> cases found
      exact (hereditary.array items).mp whole
    · cases isArray
  split at done
  · cases done
  · rename_i word _
    dsimp only at done
    generalize (if word.toInt < 0 then (items.length : Int) + word.toInt else word.toInt) = index
      at done
    split at done
    · rename_i item found
      cases done
      exact each _ (element_mem found)
    · cases done

end Values

section Builtins

theorem discreet_of_arguments {name : String} {arity : Arity} {isPure : Bool} {docs : String}
    {function : List Value → Except Fault Value}
    (apart : SpecialForm.ofName? name = none ∧ Tree.isProcedureName name = false)
    (passive : Passive function) : (ofArguments name arity isPure docs function).Discreet := by
  have reliable : (ofArguments name arity isPure docs function).Reliable := by
    apply Builtin.reliable_of_reader (fun _ => function) (fun _ _ => rfl) (fun _ => apart)
    · exact fun _ nodes _ _ => ⟨function (nodes.filterMap Tree.value?), fun _ _ => rfl⟩
    · exact fun _ _ => passive.plain
  exact reliable.discreet (fun _ => function) (fun _ _ => rfl) fun _ _ _ _ _ _ _ => rfl

theorem message_discreet {docs : String} :
    (⟨"msg", .atLeast 0, false, docs, message, none, none⟩ : Builtin).Discreet where
  apart := nofun
  faithful _ _ _ foldable := by cases foldable
  plain _ _ _ _ _ _ _ done := by cases done
  ignores _ _ _ _ _ _ _ _ likeEnv like := .ok .void (like.emit _ likeEnv.sink)
  quiet site arguments store clear := by
    dsimp only
    unfold message
    cases site.requireEnv <;> exact clear

/-- What can be asked about an environment has nothing to do with the bodies of procedures. -/
theorem answer_ignores {relation : Tree → Tree → Prop} {env env' : Environment}
    (like : env.Like ⟨Eq, relation⟩ env') (position : Position) (query : Query) :
    query.answer env position = query.answer env' position := by
  have same : env.vars = env'.vars := like.vars.eq fun _ _ related => related.eq fun _ _ eq => eq
  cases query <;> simp only [Query.answer, Environment.get?, like.label, like.command, same]

theorem reflect_pull_discreet {docs : String} :
    (⟨"reflect_pull", .between 1 2, false, docs,
      fun site arguments => .ofExcept (reflectPull site arguments), none, none⟩ :
        Builtin).Discreet := by
  refine Builtin.Reliable.discreet ?_ reflectPull (fun _ _ => rfl) ?_
  · apply Builtin.reliable_of_reader reflectPull (fun _ _ => rfl) (fun isPure => by cases isPure)
    · intro _ _ _ foldable
      cases foldable
    · intro _ _ _ _ _ done
      cases done
  · intro _ position catalogue env env' values like
    simp only [reflectPull, CallSite.requireEnv, except_ok_bind, answer_ignores like]

theorem reflect_docs_fixed {nodes : List Tree} (fixed : docsAreFixed nodes = true)
    (position position' : Position) (env env' : Option Environment) (catalogue : Catalogue) :
    reflectDocs ⟨position, env, catalogue⟩ (nodes.filterMap Tree.value?) =
      reflectDocs ⟨position', env', catalogue⟩ (nodes.filterMap Tree.value?) := by
  unfold docsAreFixed at fixed
  split at fixed
  · rename_i element named
    split at fixed
    · rename_i name isFunction
      rcases nodes with _ | ⟨first, rest⟩
      · cases named
      · have begins : first.value? = some element := named
        rw [List.filterMap_cons, begins]
        unfold reflectDocs
        cases rest.filterMap Tree.value? with
        | nil => rfl
        | cons field later =>
          simp only [twoArguments, except_ok_bind, isFunction]
    · cases fixed
  · cases fixed

theorem reflect_docs_discreet {docs : String} :
    (⟨"reflect_docs", .exactly 2, false, docs,
      fun site arguments => .ofExcept (reflectDocs site arguments), some checkDocs,
      some docsAreFixed⟩ : Builtin).Discreet := by
  refine Builtin.Reliable.discreet ?_ reflectDocs (fun _ _ => rfl) ?_
  · apply Builtin.reliable_of_reader reflectDocs (fun _ _ => rfl) (fun isPure => by cases isPure)
    · intro catalogue nodes _ fixed
      exact ⟨_, fun position env => reflect_docs_fixed fixed position .unknown env none _⟩
    · intro position catalogue values value _ done
      rcases except_bind_ok done with ⟨⟨element, fieldName⟩, -, done⟩
      rcases except_bind_ok done with ⟨field, -, done⟩
      dsimp only at done
      split at done
      · cases done
      · cases done
      · split at done
        · rcases except_bind_ok done with ⟨part, -, built⟩
          cases built
          rfl
        · cases done
  · intro _ position catalogue env env' values like
    simp only [reflectDocs, CallSite.requireEnv, except_ok_bind,
      Bindings.Like.contains like.vars, Bindings.Like.contains like.procedures]

/-- What holds of each function of the prelude: of those that only look at their arguments, and of
the three others. -/
theorem builtins_hold {holds : Builtin → Prop}
    (arguments : ∀ name arity isPure docs function,
      SpecialForm.ofName? name = none ∧ Tree.isProcedureName name = false → Passive function →
        holds (ofArguments name arity isPure docs function))
    (msg : ∀ docs, holds ⟨"msg", .atLeast 0, false, docs, message, none, none⟩)
    (pull : ∀ docs, holds ⟨"reflect_pull", .between 1 2, false, docs,
      fun site arguments => .ofExcept (reflectPull site arguments), none, none⟩)
    (docs : ∀ docs, holds ⟨"reflect_docs", .exactly 2, false, docs,
      fun site arguments => .ofExcept (reflectDocs site arguments), some checkDocs,
      some docsAreFixed⟩) : ∀ builtin ∈ builtins, holds builtin := by
  simp only [builtins, numeric, general, arrays, reflection, List.cons_append, List.nil_append,
    List.forall_mem_cons]
  refine ⟨?_, ?_, ?_, ?_, ?_, ?_, ?_, ?_, ?_, ?_, ?_, ?_, msg _, ?_, ?_, ?_, pull _, docs _, nofun⟩
  · exact arguments _ _ _ _ _ (by decide) (fold_passive _ _ _)
  · exact arguments _ _ _ _ _ (by decide) (fold_passive _ _ _)
  · exact arguments _ _ _ _ _ (by decide) (fold_passive _ _ _)
  · exact arguments _ _ _ _ _ (by decide) (fold_passive _ _ _)
  · exact arguments _ _ _ _ _ (by decide) modulo_passive
  · exact arguments _ _ _ _ _ (by decide) (compare_passive _)
  · exact arguments _ _ _ _ _ (by decide) (compare_passive _)
  · exact arguments _ _ _ _ _ (by decide) concat_passive
  · exact arguments _ _ _ _ _ (by decide) equals_passive
  · exact arguments _ _ _ _ _ (by decide) negate_passive
  · exact arguments _ _ _ _ _ (by decide) type_of_passive
  · exact arguments _ _ _ _ _ (by decide) pass_on_passive
  · exact arguments _ _ _ _ _ (by decide) make_array_passive
  · exact arguments _ _ _ _ _ (by decide) array_get_passive
  · exact arguments _ _ _ _ _ (by decide) array_size_passive

/-- Scripts may be optimized with every function of the prelude. -/
theorem builtins_discreet : ∀ builtin ∈ builtins, builtin.Discreet :=
  builtins_hold (fun _ _ _ _ _ => discreet_of_arguments) (fun _ => message_discreet)
    (fun _ => reflect_pull_discreet) (fun _ => reflect_docs_discreet)

theorem builtins_reliable : ∀ builtin ∈ builtins, builtin.Reliable :=
  fun builtin member => (builtins_discreet builtin member).toReliable

end Builtins

end Prelude

end TreeScript
