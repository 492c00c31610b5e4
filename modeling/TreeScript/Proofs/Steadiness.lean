import TreeScript.Proofs.Parallel
/-!
# Functions that do the same in two runs

The functions of the prelude look at a value in a few ways only: they take its text, read it as a
number, take an array apart and compare two values. None of these depends on the identities in a
value, except the comparison, and that only asks whether two of them are the same. So all these
functions do the same with values that are alike.
-/

namespace TreeScript

set_option autoImplicit false

inductive SameResult {Item : Type} (like : Item → Item → Prop) :
    Except Fault Item → Except Fault Item → Prop where
  | ok {item item' : Item} : like item item' → SameResult like (.ok item) (.ok item')
  | error (fault : Fault) : SameResult like (.error fault) (.error fault)

namespace SameResult

variable {Item Result : Type} {like : Item → Item → Prop} {like' : Result → Result → Prop}
  {first first' : Except Fault Item}

theorem bind {next next' : Item → Except Fault Result} (same : SameResult like first first')
    (others : ∀ item item', like item item' → SameResult like' (next item) (next' item')) :
    SameResult like' (first >>= next) (first' >>= next') := by
  cases same with
  | ok related => exact others _ _ related
  | error fault => exact .error fault

theorem of_eq (same : first = first') : SameResult Eq first first' := by
  subst same
  cases first with
  | ok item => exact .ok rfl
  | error fault => exact .error fault

/-- A function that leaves the store alone has the same result on all stores. -/
theorem parallel {pairing : Pairing} {result result' : Except Fault Value}
    (same : SameResult (Value.Alike pairing) result result') :
    Parallel (Store.Alike pairing) Eq (Value.Alike pairing) (Action.ofExcept result)
      (Action.ofExcept result') := by
  intro store store' begun
  cases same with
  | ok related => exact .ok related begun
  | error fault => exact .error rfl begun

end SameResult

namespace Prelude

def SteadyFunction (function : List Value → Except Fault Value) : Prop :=
  ∀ (pairing : Pairing) values values', ValuesAlike pairing values values' →
    SameResult (Value.Alike pairing) (function values) (function values')

section Readings

variable {pairing : Pairing} {value value' other other' : Value} {values values' : List Value}

theorem number_of_alike (alike : value.Alike pairing value') :
    Number.ofValue value = Number.ofValue value' := by
  cases alike <;> rfl

theorem accumulate_alike (step : Number → Number → Except Fault Number) (total : Number)
    (alike : ValuesAlike pairing values values') :
    Number.accumulate step total values = Number.accumulate step total values' := by
  induction alike generalizing total with
  | nil => rfl
  | cons first others induction =>
      rw [Number.accumulate, Number.accumulate, number_of_alike first]
      simp only [induction]

theorem one_argument_alike (alike : ValuesAlike pairing values values') :
    SameResult (Value.Alike pairing) (oneArgument values) (oneArgument values') := by
  cases alike with
  | nil => exact .error _
  | cons first others => exact .ok first

theorem two_arguments_alike (alike : ValuesAlike pairing values values') :
    SameResult (fun both both' => both.1.Alike pairing both'.1 ∧ both.2.Alike pairing both'.2)
      (twoArguments values) (twoArguments values') := by
  cases alike with
  | nil => exact .error _
  | cons first others =>
      cases others with
      | nil => exact .error _
      | cons second later => exact .ok ⟨first, second⟩

theorem require_array_alike (alike : value.Alike pairing value') :
    SameResult (ValuesAlike pairing) (requireArray value) (requireArray value') := by
  cases alike with
  | @basic value isBasic => cases value <;> first | exact .error _ | cases isBasic
  | resource => exact .error _
  | array length each => exact .ok (List.forall₂_iff_zip.mpr ⟨length, each⟩)
  | closure => exact .error _

theorem integer_alike (alike : value.Alike pairing value') : value.integer? = value'.integer? := by
  cases alike <;> rfl

theorem texts_alike (alike : ValuesAlike pairing values values') :
    values.map Value.text = values'.map Value.text := by
  induction alike with
  | nil => rfl
  | cons first others induction => rw [List.map_cons, List.map_cons, first.text, induction]

theorem item_alike (alike : ValuesAlike pairing values values') (index : Nat) :
    Option.Rel (Value.Alike pairing) values[index]? values'[index]? := by
  induction alike generalizing index with
  | nil => exact .none
  | cons first others induction =>
      cases index with
      | zero => exact .some first
      | succ index => simpa only [List.getElem?_cons_succ] using induction index

theorem loosely_equal_alike (alike : value.Alike pairing value')
    (others : other.Alike pairing other') :
    looselyEqual value other = looselyEqual value' other' := by
  have same : (value == other) = (value' == other') := alike.same others
  cases alike with
  | @basic value isBasic =>
      cases others with
      | basic => rfl
      | _ => cases value <;> exact same
  | _ =>
      cases others with
      | @basic other isBasic => cases other <;> exact same
      | _ => exact same

end Readings

section Functions

theorem fold_steady (operation needed : String) (step : Number → Number → Except Fault Number) :
    SteadyFunction (fold operation needed step) := by
  intro pairing values values' alike
  cases alike with
  | nil => exact .error _
  | cons first others =>
      unfold fold
      refine (SameResult.of_eq (number_of_alike first)).bind fun start start' same => ?_
      subst same
      exact (SameResult.of_eq (accumulate_alike step start others)).bind
        fun total total' same => same ▸ .ok (.basic (number_basic total))

theorem modulo_steady : SteadyFunction modulo := by
  intro pairing values values' alike
  unfold modulo
  refine (two_arguments_alike alike).bind ?_
  rintro ⟨first, second⟩ ⟨first', second'⟩ ⟨alike, others⟩
  refine (SameResult.of_eq (number_of_alike alike)).bind fun a a' same => ?_
  refine (SameResult.of_eq (number_of_alike others)).bind fun b b' same' => ?_
  subst same same'
  exact (SameResult.of_eq rfl).bind fun rest rest' same => same ▸ .ok (.basic (number_basic rest))

theorem compare_steady (order : Float → Float → Bool) : SteadyFunction (compare order) := by
  intro pairing values values' alike
  unfold compare
  refine (two_arguments_alike alike).bind ?_
  rintro ⟨first, second⟩ ⟨first', second'⟩ ⟨alike, others⟩
  refine (SameResult.of_eq (number_of_alike alike)).bind fun a a' same => ?_
  refine (SameResult.of_eq (number_of_alike others)).bind fun b b' same' => ?_
  subst same same'
  exact .ok (.basic rfl)

theorem equals_steady : SteadyFunction equals := by
  intro pairing values values' alike
  unfold equals
  refine (two_arguments_alike alike).bind ?_
  rintro ⟨first, second⟩ ⟨first', second'⟩ ⟨alike, others⟩
  dsimp only
  rw [loosely_equal_alike alike others]
  exact .ok (.basic rfl)

theorem concat_steady : SteadyFunction concat := by
  intro pairing values values' alike
  unfold concat
  rw [texts_alike alike]
  exact .ok (.basic rfl)

theorem negate_steady : SteadyFunction negate := by
  intro pairing values values' alike
  unfold negate
  refine (one_argument_alike alike).bind fun value value' related => ?_
  rw [related.truthy]
  exact .ok (.basic rfl)

theorem type_of_steady : SteadyFunction typeOf := by
  intro pairing values values' alike
  unfold typeOf
  refine (one_argument_alike alike).bind fun value value' related => ?_
  rw [related.type_name]
  exact .ok (.basic rfl)

theorem pass_on_steady : SteadyFunction passOn := by
  intro pairing values values' alike
  cases alike with
  | nil => exact .ok .void
  | cons first others => exact .ok first

theorem make_array_steady : SteadyFunction makeArray :=
  fun _ _ _ alike => .ok (.of_items alike)

theorem array_size_steady : SteadyFunction arraySize := by
  intro pairing values values' alike
  unfold arraySize
  refine (one_argument_alike alike).bind fun array array' related => ?_
  refine (require_array_alike related).bind fun items items' same => ?_
  rw [same.length_eq]
  exact .ok (.basic rfl)

theorem array_get_steady : SteadyFunction arrayGet := by
  intro pairing values values' alike
  unfold arrayGet
  refine (two_arguments_alike alike).bind ?_
  rintro ⟨array, position⟩ ⟨array', position'⟩ ⟨arrays, positions⟩
  refine (require_array_alike arrays).bind fun items items' same => ?_
  dsimp only
  rw [integer_alike positions, positions.type_name, same.length_eq]
  cases position'.integer? with
  | none => exact .error _
  | some word =>
      dsimp only
      generalize (if word.toInt < 0 then (items'.length : Int) + word.toInt else word.toInt) = index
      have found : Option.Rel (Value.Alike pairing)
          (if index < 0 then none else items[index.toNat]?)
          (if index < 0 then none else items'[index.toNat]?) := by
        split
        · exact .none
        · exact item_alike same _
      generalize (if index < 0 then none else items[index.toNat]?) = item at found
      generalize (if index < 0 then none else items'[index.toNat]?) = item' at found
      cases found with
      | none => exact .error _
      | some element => exact .ok element

variable {pairing : Pairing} {env env' : Environment}

theorem names_alike (alike : env.Alike pairing env') : env.vars.names = env'.vars.names := by
  have entries : List.Forall₂ (fun entry entry' => entry.1 = entry'.1 ∧
      entry.2.Alike pairing entry'.2) env.vars.entries env'.vars.entries := alike.vars
  unfold Bindings.names
  generalize env.vars.entries = written at entries
  generalize env'.vars.entries = written' at entries
  induction entries with
  | nil => rfl
  | cons first others induction => rw [List.map_cons, List.map_cons, first.1, induction]

theorem read_query_alike (name : String) {argument argument' : Option Value}
    (alike : Option.Rel (Value.Alike pairing) argument argument') :
    Query.read? name argument = Query.read? name argument' := by
  cases alike with
  | none => rfl
  | some related =>
      have text := related.text
      unfold Query.read?
      split <;> simp_all

theorem texts_stand (texts : List String) :
    (Value.array (texts.map .string)).Alike pairing (.array (texts.map .string)) :=
  .of_items (List.forall₂_same.mpr fun value member => by
    obtain ⟨text, -, rfl⟩ := List.mem_map.mp member
    exact .basic rfl)

theorem answer_alike (alike : env.Alike pairing env') (position : Position) (query : Query) :
    SameResult (Value.Alike pairing) (query.answer env position) (query.answer env' position) := by
  have text_or_null : ∀ text : Option String,
      (Value.ofOption (text.map .string)).Alike pairing (Value.ofOption (text.map .string)) := by
    intro text
    cases text <;> exact .basic rfl
  cases query with
  | label =>
      simp only [Query.answer, alike.label]
      exact .ok (text_or_null _)
  | command =>
      simp only [Query.answer, alike.command]
      exact .ok (text_or_null _)
  | variableNames =>
      simp only [Query.answer, names_alike alike]
      exact .ok (texts_stand _)
  | «variable» name =>
      have found := alike.vars.find name
      simp only [Query.answer, Environment.get?]
      generalize env.vars.find? name = value at found
      generalize env'.vars.find? name = value' at found
      cases found with
      | none => exact .error _
      | some related => exact .ok related
  | line | column | file => exact .ok (.basic rfl)

end Functions

section Builtins

variable {pairing : Pairing}

theorem of_arguments_steady {function : List Value → Except Fault Value}
    (steady : SteadyFunction function) (name : String) (arity : Arity) (isPure : Bool)
    (docs : String) : (ofArguments name arity isPure docs function).SteadyUnder pairing :=
  fun _ _ _ _ _ _ _ given => (steady pairing _ _ given).parallel

theorem message_steady (docs : String) :
    (⟨"msg", .atLeast 0, false, docs, message, none, none⟩ : Builtin).SteadyUnder pairing := by
  intro position catalogue env env' arguments arguments' envs given store store' begun
  simp only [message, CallSite.requireEnv, texts_alike given, envs.sink]
  exact .ok .void (begun.emit _ _)

theorem reflect_pull_steady (docs : String) :
    (⟨"reflect_pull", .between 1 2, false, docs,
      fun site arguments => .ofExcept (reflectPull site arguments), none, none⟩ :
        Builtin).SteadyUnder pairing := by
  intro position catalogue env env' arguments arguments' envs given
  apply SameResult.parallel
  simp only [reflectPull, CallSite.requireEnv, except_ok_bind]
  refine (one_argument_alike given).bind fun name name' related => ?_
  rw [related.text, read_query_alike name'.text (item_alike given 1)]
  split
  · exact answer_alike envs position _
  · exact .error _

theorem reflect_docs_steady (docs : String) :
    (⟨"reflect_docs", .exactly 2, false, docs,
      fun site arguments => .ofExcept (reflectDocs site arguments), some checkDocs,
      some docsAreFixed⟩ : Builtin).SteadyUnder pairing := by
  intro position catalogue env env' arguments arguments' envs given
  apply SameResult.parallel
  unfold reflectDocs
  refine (two_arguments_alike given).bind ?_
  rintro ⟨element, fieldName⟩ ⟨element', fieldName'⟩ ⟨elements, fields⟩
  dsimp only
  rw [elements.text, fields.text]
  refine (SameResult.of_eq rfl).bind fun field field' same => ?_
  subst same
  simp only [CallSite.requireEnv, except_ok_bind, envs.vars.contains, envs.procedures.contains]
  split
  · split
    · exact .ok (.basic rfl)
    · exact .error _
  · split
    · exact .ok (.basic rfl)
    · exact .error _
  · split
    · exact (SameResult.of_eq rfl).bind fun part part' same => same ▸ .ok (.basic rfl)
    · exact .error _

theorem builtins_steady : ∀ builtin ∈ builtins, builtin.SteadyUnder pairing := by
  simp only [builtins, numeric, general, arrays, reflection, List.cons_append, List.nil_append,
    List.forall_mem_cons]
  have arguments := @of_arguments_steady pairing
  exact ⟨arguments (fold_steady _ _ _) _ _ _ _, arguments (fold_steady _ _ _) _ _ _ _,
    arguments (fold_steady _ _ _) _ _ _ _, arguments (fold_steady _ _ _) _ _ _ _,
    arguments modulo_steady _ _ _ _, arguments (compare_steady _) _ _ _ _,
    arguments (compare_steady _) _ _ _ _, arguments concat_steady _ _ _ _,
    arguments equals_steady _ _ _ _, arguments negate_steady _ _ _ _,
    arguments type_of_steady _ _ _ _, arguments pass_on_steady _ _ _ _, message_steady _,
    arguments make_array_steady _ _ _ _, arguments array_get_steady _ _ _ _,
    arguments array_size_steady _ _ _ _, reflect_pull_steady _, reflect_docs_steady _,
    List.forall_mem_nil _⟩

theorem registry_steady_under (pairing : Pairing) : registry.SteadyUnder pairing :=
  fun _ builtin found => builtins_steady builtin (Registry.find_of_list found).1

end Builtins

end Prelude

end TreeScript
