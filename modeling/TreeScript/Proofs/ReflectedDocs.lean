import Mathlib.Data.List.TakeWhile
import TreeScript.Proofs.Rejection
/-!
# Documentation that a script asks for

A call of `reflect_docs` is looked at three times: a check before the script runs, the decision
whether it is folded, and the function itself. Each of them works out anew what the element is. They
agree: what the check rejects fails when it runs, the documentation of a function is the same before
and while the script runs, and a call about a variable or a procedure is left for the running
script.
-/

namespace TreeScript

set_option autoImplicit false

namespace Docs

/-- Documentation without an opening brace, or without a closing one behind the first of them. -/
def Unbraced (docs : String) : Prop :=
  '\x7b' ∉ docs.toList ∨
    ∃ front behind, docs.toList = front ++ '\x7b' :: behind ∧ '\x7b' ∉ front ∧ '\x7d' ∉ behind

theorem drop_until_eq_nil_iff (wanted : Char) (text : List Char) :
    text.dropWhile (· != wanted) = [] ↔ wanted ∉ text := by
  simp only [List.dropWhile_eq_nil_iff, bne_iff_ne]
  constructor
  · intro differs member
    exact differs wanted member rfl
  · rintro missing c member rfl
    exact missing member

theorem drop_until_eq_cons {wanted : Char} {text front behind : List Char}
    (split : text = front ++ wanted :: behind) (first : wanted ∉ front) :
    text.dropWhile (· != wanted) = wanted :: behind := by
  have passed : ∀ c ∈ front, (c != wanted) = true := by
    intro c member
    rw [bne_iff_ne]
    rintro rfl
    exact first member
  rw [split, List.dropWhile_append_of_pos passed, List.dropWhile_cons]
  simp

/-- Documentation cannot be taken apart exactly if it lacks one of the braces. -/
theorem split_eq_none_iff (docs : String) : split? docs.toList = none ↔ Unbraced docs := by
  unfold split?
  cases opened : docs.toList.dropWhile (· != '\x7b') with
  | nil =>
      have missing := (drop_until_eq_nil_iff _ _).mp opened
      simp [Unbraced, missing]
  | cons brace behind =>
      have first : brace = '\x7b' := by
        have found := List.head?_dropWhile_not (· != '\x7b') docs.toList
        simpa [opened] using found
      subst first
      have present : '\x7b' ∈ docs.toList := by
        apply List.dropWhile_subset (· != '\x7b')
        rw [opened]
        exact List.mem_cons_self
      have braced : Unbraced docs ↔ '\x7d' ∉ behind := by
        constructor
        · rintro (missing | ⟨front, after, split, clear, missing⟩)
          · exact absurd present missing
          · have same := drop_until_eq_cons split clear
            rw [opened, List.cons.injEq] at same
            rw [same.2]
            exact missing
        · intro missing
          apply Or.inr
          refine ⟨docs.toList.takeWhile (· != '\x7b'), behind, ?_, ?_, missing⟩
          · rw [← opened, List.takeWhile_append_dropWhile]
          · intro member
            simpa using List.mem_takeWhile_imp member
      apply Iff.trans ?_ braced.symm
      rw [← drop_until_eq_nil_iff]
      cases ended : behind.dropWhile (· != '\x7d') with
      | nil => simp [ended]
      | cons closing rest => simp [ended]

end Docs

theorem DocField.extract_eq_none_iff (field : DocField) (docs : String) :
    field.extract? docs = none ↔ Docs.Unbraced docs := by
  rw [DocField.extract?, Option.map_eq_none_iff, Docs.split_eq_none_iff]

section Calls

variable {registry : Registry} {builtin : Builtin} {name : String} {arguments : List Tree}
  {result : Except Fault Value}

/-- A call on literals that may be folded, and that comes to one result: to the literal or the error
that an optimizer with folding puts in its place, and to the value or the error that evaluating the
call has in every environment. -/
structure FoldsToRun (registry : Registry) (builtin : Builtin) (name : String)
    (arguments : List Tree) (result : Except Fault Value) : Prop where
  foldable : builtin.isFoldable arguments = true
  runs : ∀ position env store,
    builtin.run ⟨position, env, registry.catalogue⟩ (arguments.filterMap Tree.value?) store =
      Action.ofExcept result store
  folded : ∀ (optimizer : Optimizer) (node : Tree) (progress : Progress),
    optimizer.registry = registry → optimizer.options.foldConstants = true →
      node.children = arguments →
        optimizer.foldCall name node progress =
          match result with
          | .ok value => .ok (Tree.literal value node.position) progress
          | .error fault => .error (.foldFailed name fault node.position) progress
  evaluated : ∀ (context : Context) run position optimized facts (machine : Machine),
    context.registry = registry → machine.store.interrupted = false →
      evaluate context run ⟨.call name, position, optimized, facts, arguments⟩ machine =
        Run.ofExcept (result.mapError (EvalError.builtin name · position)) machine

/-- A call that no optimizer folds: it stays as it is unless the check of its arguments fails. -/
structure NeverFolded (registry : Registry) (builtin : Builtin) (name : String)
    (arguments : List Tree) : Prop where
  refused : builtin.isFoldable arguments = false
  stays : ∀ (optimizer : Optimizer) (node : Tree) (progress : Progress),
    optimizer.registry = registry → node.children = arguments →
      optimizer.foldCall name node progress = .ok node progress ∨
        ∃ fault, optimizer.foldCall name node progress =
          .error (.invalidArgument name fault node.position) progress

theorem check_arity_accepted {arity : Arity} {node : Tree} (progress : Progress)
    (accepted : arity.accepts node.children.length = true) :
    checkArity name arity node progress = .ok () progress := by
  rw [checkArity, if_pos accepted]
  rfl

/-- One result of the function makes one outcome of folding and of evaluating the call. -/
theorem folds_to_run (found : registry.find? name = some builtin)
    (plain : SpecialForm.ofName? name = none) (named : Tree.isProcedureName name = false)
    (accepted : builtin.arity.accepts arguments.length = true)
    (passes : ∀ check, builtin.staticCheck = some check →
      check arguments registry.catalogue = .ok ())
    (constant : arguments.all Tree.isConstant = true)
    (foldable : builtin.isFoldable arguments = true)
    (runs : ∀ position env store,
      builtin.run ⟨position, env, registry.catalogue⟩ (arguments.filterMap Tree.value?) store =
        Action.ofExcept result store) :
    FoldsToRun registry builtin name arguments result := by
  refine ⟨foldable, runs, ?_, ?_⟩
  · intro optimizer node progress same folding given
    subst same given
    have checked : checkStatically optimizer name builtin node progress = .ok () progress := by
      unfold checkStatically
      cases check : builtin.staticCheck with
      | none => rfl
      | some test =>
          simp only [passes test check]
          rfl
    rw [fold_call_eq _ found, bind_of_ok (check_arity_accepted progress accepted),
      bind_of_ok checked, fold_checked_folds _ (by simp only [folding, constant, foldable]; rfl),
      runs]
    cases result <;> rfl
  · intro context run position optimized facts machine same clear
    subst same
    have values := @evaluate_all_constant context run machine clear arguments constant
    rw [evaluate_builtin _ _ _ _ _ _ plain named found, unless_interrupted_clear _ clear,
      bind_of_ok values, call_builtin_accepted (by rw [values_length constant]; exact accepted),
      runs]
    cases result <;> rfl

theorem never_folded (found : registry.find? name = some builtin)
    (accepted : builtin.arity.accepts arguments.length = true)
    (refused : builtin.isFoldable arguments = false) :
    NeverFolded registry builtin name arguments := by
  refine ⟨refused, ?_⟩
  intro optimizer node progress same given
  subst same given
  have left : foldChecked optimizer name builtin node = pure node := by
    apply fold_checked_stays
    simp [refused]
  rw [fold_call_eq _ found, bind_of_ok (check_arity_accepted progress accepted), left]
  unfold checkStatically
  cases builtin.staticCheck with
  | none => exact Or.inl rfl
  | some check =>
      cases verdict : check node.children optimizer.registry.catalogue with
      | ok _ =>
          apply Or.inl
          simp only [verdict]
          rfl
      | error fault =>
          refine Or.inr ⟨fault, ?_⟩
          simp only [verdict]
          rfl

end Calls

namespace Prelude

variable {catalogue : Catalogue} {first second : Tree} {element field : Value}

/-- A text that begins with neither of the two signs names a function. -/
def NamesFunction (element : Value) : Prop :=
  ∀ c ∈ element.text.toList.head?, c ≠ '@' ∧ c ≠ '_'

theorem element_of_function (named : NamesFunction element) :
    Element.ofName element.text = .function element.text := by
  unfold Element.ofName
  split
  · rename_i begins
    exact absurd rfl (named '@' begins).1
  · rename_i begins
    exact absurd rfl (named '_' begins).2
  · rfl

theorem names_function_of_element {name : String}
    (isFunction : Element.ofName element.text = .function name) : NamesFunction element := by
  intro c begins
  unfold Element.ofName at isFunction
  constructor
  · rintro rfl
    rw [Option.mem_def.mp begins] at isFunction
    cases isFunction
  · rintro rfl
    rw [Option.mem_def.mp begins] at isFunction
    cases isFunction

theorem docs_fixed_iff (first second : Tree) :
    docsAreFixed [first, second] = true ↔
      ∃ element, first.value? = some element ∧ NamesFunction element := by
  unfold docsAreFixed
  simp only [List.head?_cons, Option.bind_some]
  constructor
  · intro fixed
    cases shown : first.value? with
    | none => simp [shown] at fixed
    | some element =>
        cases kind : Element.ofName element.text with
        | function name => exact ⟨element, rfl, names_function_of_element kind⟩
        | «variable» name => simp [shown, kind] at fixed
        | procedure name => simp [shown, kind] at fixed
  · rintro ⟨element, shown, named⟩
    simp only [shown, element_of_function named]

theorem checked_docs (accepted : checkDocs [first, second] catalogue = .ok ())
    (shown : first.value? = some element) (shown' : second.value? = some field)
    (named : NamesFunction element) :
    (∃ docs, catalogue.docs? element.text = some docs) ∧
      ∃ part, readField field.text = .ok part := by
  have asked : [first, second][1]?.bind Tree.value? = some field := shown'
  unfold checkDocs at accepted
  simp only [List.head?_cons, Option.bind_some, shown, asked, element_of_function named]
    at accepted
  by_cases missing : (!catalogue.contains element.text &&
      (SpecialForm.ofName? element.text).isNone) = true
  · rw [if_pos missing] at accepted
    cases accepted
  · rw [if_neg missing] at accepted
    obtain ⟨part, read, -⟩ := except_bind_ok accepted
    refine ⟨?_, part, read⟩
    unfold Catalogue.docs?
    cases special : SpecialForm.ofName? element.text with
    | some form => exact ⟨form.docs, rfl⟩
    | none =>
        have listed : catalogue.contains element.text = true := by simpa [special] using missing
        obtain ⟨entry, found⟩ := Option.isSome_iff_exists.mp listed
        exact ⟨entry.docs, by rw [found]; rfl⟩

theorem known_docs_fail_iff {docs : String} {part : DocField} (named : NamesFunction element)
    (found : catalogue.docs? element.text = some docs) (read : readField field.text = .ok part)
    (position : Position) (env : Option Environment) (fault : Fault) :
    reflectDocs ⟨position, env, catalogue⟩ [element, field] = .error fault ↔
      Docs.Unbraced docs ∧ fault = .unreadableDocs docs := by
  have answer : reflectDocs ⟨position, env, catalogue⟩ [element, field] =
      (extractField part docs >>= fun text => .ok (.string text)) := by
    simp only [reflectDocs, twoArguments, except_ok_bind, read, element_of_function named, found]
    rfl
  rw [answer, ← part.extract_eq_none_iff, extractField]
  cases part.extract? docs with
  | none => simp [bind, Except.bind, eq_comm]
  | some text => simp [bind, Except.bind]

/-- How the three views of a call of `reflect_docs` with two arguments agree. -/
structure DocsViews (registry : Registry) (builtin : Builtin) (first second : Tree) : Prop where
  rejected : ∃ check, builtin.staticCheck = some check ∧
    ∀ fault, check [first, second] registry.catalogue = .error fault →
      ∀ element field, first.Allows element → second.Allows field →
        ∀ position env store, ∃ fault',
          builtin.run ⟨position, env, registry.catalogue⟩ [element, field] store =
            .error fault' store
  folded : ∀ element field, first.value? = some element → second.value? = some field →
    (∀ check, builtin.staticCheck = some check →
      check [first, second] registry.catalogue = .ok ()) → NamesFunction element →
    ∃ result, FoldsToRun registry builtin "reflect_docs" [first, second] result ∧
      ∃ docs, registry.docs? element.text = some docs ∧
        ∀ fault, result = .error fault ↔ Docs.Unbraced docs ∧ fault = .unreadableDocs docs
  left : (∀ element, first.value? = some element → ¬ NamesFunction element) →
    NeverFolded registry builtin "reflect_docs" [first, second]

end Prelude

/-- In every registry that has `reflect_docs` from the prelude, the check, the decision to fold and
the function agree on every call with two arguments. -/
theorem reflect_docs_views_agree {registry : Registry}
    (standard : registry.find? "reflect_docs" = Prelude.registry.find? "reflect_docs")
    (first second : Tree) :
    ∃ builtin, registry.find? "reflect_docs" = some builtin ∧
      Prelude.DocsViews registry builtin first second := by
  obtain ⟨docs, registered⟩ : ∃ docs, Prelude.registry.find? "reflect_docs" =
      some ⟨"reflect_docs", .exactly 2, false, docs,
        fun site arguments => .ofExcept (Prelude.reflectDocs site arguments),
        some Prelude.checkDocs, some Prelude.docsAreFixed⟩ := ⟨_, rfl⟩
  have found := standard.trans registered
  refine ⟨_, found, ⟨Prelude.checkDocs, rfl, ?_⟩, ?_, ?_⟩
  · intro fault rejected element field allows allows' position env store
    obtain ⟨fault', refused⟩ := check_docs_honest rejected allows allows' position env
    exact ⟨fault', congrArg (Action.ofExcept · store) refused⟩
  · intro element field shown shown' accepted named
    have passes := accepted Prelude.checkDocs rfl
    obtain ⟨⟨text, listed⟩, part, read⟩ := Prelude.checked_docs passes shown shown' named
    have constant : [first, second].all Tree.isConstant = true := by
      simp [Tree.isConstant_eq, shown, shown']
    have values : [first, second].filterMap Tree.value? = [element, field] := by
      simp [shown, shown']
    have fixed := (Prelude.docs_fixed_iff first second).mpr ⟨element, shown, named⟩
    refine ⟨Prelude.reflectDocs ⟨.unknown, none, registry.catalogue⟩ [element, field], ?_, text,
      listed, Prelude.known_docs_fail_iff named listed read .unknown none⟩
    apply folds_to_run found (by decide) (by decide) rfl ?_ constant fixed
    · intro position env store
      have same := Prelude.reflect_docs_fixed fixed position .unknown env none registry.catalogue
      rw [values] at same
      rw [values, ← same]
    · intro check same
      cases same
      exact passes
  · intro signed
    apply never_folded found rfl
    rw [Builtin.isFoldable, Bool.false_or, Option.any_some, Bool.eq_false_iff]
    intro fixed
    obtain ⟨element, shown, named⟩ := (Prelude.docs_fixed_iff first second).mp fixed
    exact signed element shown named

def extendedPrelude : Registry :=
  Prelude.registry.register
    (Prelude.ofArguments "sum" (.exactly 1) true "number \x7bvalue\x7d Adds it." Prelude.add)

theorem reflect_docs_views_agree_on_sum :
    extendedPrelude.find? "reflect_docs" = Prelude.registry.find? "reflect_docs" ∧
    ∃ builtin, extendedPrelude.find? "reflect_docs" = some builtin ∧
      Prelude.DocsViews extendedPrelude builtin (.literal (.string "sum") .unknown)
        (.literal (.string "args") .unknown) := by
  have standard : extendedPrelude.find? "reflect_docs" = Prelude.registry.find? "reflect_docs" := by
    rw [extendedPrelude, Registry.find?_register]
    exact if_neg (by decide)
  exact ⟨standard, reflect_docs_views_agree standard _ _⟩

end TreeScript
