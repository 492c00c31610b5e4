import Mathlib.Logic.Relation
import TreeScript.Proofs.Reduction
import TreeScript.Proofs.Standard
/-!
# Scripts that are rejected

The optimizer decides on a script from the nodes that it leaves behind, before anything runs. As
long as it replaces no calls it never decides too early: where it rejects a script, some part of the
script cannot have a value, whatever environment it is evaluated in. This does not say that a run
gets as far as that part.

A literal that is left of a node is what the node itself comes to. So the arguments that a call was
folded with, or that a check has seen, are those that the call gets when it runs.
-/

namespace TreeScript

set_option autoImplicit false

namespace Tree

def Subtree : Tree → Tree → Prop :=
  Relation.ReflTransGen fun child parent => child ∈ parent.children

def NeverSucceeds (registry : Registry) (node : Tree) : Prop :=
  ∀ context run machine value after, context.registry = registry →
    evaluate context run node machine ≠ .ok value after

def AlwaysFails (registry : Registry) (node : Tree) (error : EvalError) : Prop :=
  ∀ context run machine, context.registry = registry → machine.store.interrupted = false →
    ∃ after, evaluate context run node machine = .error error after

theorem AlwaysFails.never_succeeds {registry : Registry} {node : Tree} {error : EvalError}
    (fails : node.AlwaysFails registry error) : node.NeverSucceeds registry := by
  intro context run machine value after same done
  rcases fails context run machine same (clear_of_evaluate_ok _ _ done) with ⟨_, failed⟩
  rw [failed] at done
  cases done

end Tree

namespace Registry

/-- What comes out of a call that may be folded depends on its arguments alone, and the call does
not interrupt the script. It may have other effects. -/
def FoldsByArguments (registry : Registry) : Prop :=
  ∀ name builtin nodes, registry.find? name = some builtin → nodes.all Tree.isConstant = true →
    builtin.isFoldable nodes = true →
      ∃ result, ∀ position env (store : Store), ∃ after : Store,
        (store.interrupted = false → after.interrupted = false) ∧
        builtin.run ⟨position, env, registry.catalogue⟩ (nodes.filterMap Tree.value?) store =
          Action.ofExcept result after

/-- A static check validates the constant arguments: it rejects only calls that fail when they run,
whatever the other arguments come to. -/
def ChecksHonestly (registry : Registry) : Prop :=
  ∀ name builtin check nodes fault, registry.find? name = some builtin →
    builtin.staticCheck = some check → builtin.arity.accepts nodes.length = true →
    check nodes registry.catalogue = .error fault →
      ∀ position env values store, List.Forall₂ Tree.Allows nodes values →
        ∃ fault' after, builtin.run ⟨position, some env, registry.catalogue⟩ values store =
          .error fault' after

theorem FoldsFaithfully.by_arguments {registry : Registry} (faithful : registry.FoldsFaithfully) :
    registry.FoldsByArguments := by
  intro name builtin nodes found constant foldable
  rcases faithful name builtin nodes found constant foldable with ⟨result, same⟩
  exact ⟨result, fun position env store => ⟨store, id, same position env store⟩⟩

end Registry

structure Blames (registry : Registry) (error : CompileError) (part : Tree) : Prop where
  never : part.NeverSucceeds registry
  place : error.position = part.position ∨ ∃ child ∈ part.children, error.position = child.position
  folding : ∀ name fault position, error = .foldFailed name fault position →
    part.AlwaysFails registry (.builtin name fault position)

def Tree.Blamed (registry : Registry) (tree : Tree) (error : CompileError) : Prop :=
  ∃ part : Tree, part.Subtree tree ∧ Blames registry error part

namespace CompileError

def isFolding : CompileError → Bool
  | foldFailed .. => true
  | _ => false

end CompileError

theorem Blames.of_check {registry : Registry} {error : CompileError} {part : Tree}
    (other : error.isFolding = false) (never : part.NeverSucceeds registry)
    (place : error.position = part.position ∨
      ∃ child ∈ part.children, error.position = child.position) : Blames registry error part := by
  refine ⟨never, place, fun name fault position same => ?_⟩
  subst same
  cases other

theorem Blames.blamed {registry : Registry} {error : CompileError} {tree : Tree}
    (blames : Blames registry error tree) : tree.Blamed registry error :=
  ⟨tree, .refl, blames⟩

theorem Tree.Blamed.of_child {registry : Registry} {error : CompileError} {tree child : Tree}
    (member : child ∈ tree.children) (blamed : child.Blamed registry error) :
    tree.Blamed registry error := by
  rcases blamed with ⟨part, below, blames⟩
  exact ⟨part, below.tail member, blames⟩

theorem mismatch_blamed {registry : Registry} {name : String} {form : SpecialForm}
    {position : Position} {facts : Facts} {children : List Tree}
    (special : SpecialForm.ofName? name = some form)
    (refused : form.arity.accepts children.length = false) :
    Tree.Blamed registry ⟨.call name, position, false, facts, children⟩
      (.arityMismatch form.name form.arity children.length position) := by
  refine (Blames.of_check rfl ?_ (Or.inl rfl)).blamed
  intro context run machine value after _ done
  rw [evaluate_mismatch _ _ _ _ _ _ special refused] at done
  cases (unless_interrupted_ok done).2

theorem evaluate_params_written {context : Context} {run : Tree → Run Value}
    {parts : List Tree} {params : List Param} {machine after : Machine}
    (done : evaluateParams context run parts machine = .ok params after) :
    ∀ part ∈ parts.dropLast, part.parameter? ≠ none := by
  match parts with
  | [] | [_] => exact nofun
  | part :: next :: rest =>
      rw [evaluateParams] at done
      rcases bind_eq_ok done with ⟨param, between, first, done⟩
      rcases bind_eq_ok done with ⟨others, final, later, -⟩
      rw [List.dropLast_cons_cons, List.forall_mem_cons]
      refine ⟨fun shape => ?_, evaluate_params_written later⟩
      rw [evaluate_param_malformed _ _ shape] at first
      cases first

/-- An action of an optimizer with results that are good and errors that are justified. -/
def Pass.Judges {Result : Type} (good : Result → Prop) (justified : CompileError → Prop)
    (action : Pass Result) : Prop :=
  ∀ progress, match action progress with
    | .ok result _ => good result
    | .error error _ => justified error

def Pass.JudgesNode (registry : Registry) (node : Tree) (action : Pass Tree) : Prop :=
  Pass.Judges (Reduces registry node) (node.Blamed registry) action

namespace Pass.Judges

variable {Item Result : Type} {good : Item → Prop} {good' : Result → Prop}
  {justified : CompileError → Prop}

theorem pure {item : Item} (holds : good item) : Pass.Judges good justified (Pure.pure item) :=
  fun _ => holds

theorem throw {error : CompileError} (holds : justified error) :
    Pass.Judges good justified (MonadExcept.throw error) :=
  fun _ => holds

theorem bind {action : Pass Item} {next : Item → Pass Result}
    (first : Pass.Judges good justified action)
    (others : ∀ item, good item → Pass.Judges good' justified (next item)) :
    Pass.Judges good' justified (action >>= next) := by
  intro progress
  have begun := first progress
  rw [bind_apply]
  cases outcome : action progress with
  | ok item between =>
      rw [outcome] at begun
      exact others item begun between
  | error error between =>
      rw [outcome] at begun
      exact begun

theorem mono {action : Pass Item} {justified' : CompileError → Prop}
    (judges : Pass.Judges good justified action)
    (weaker : ∀ error, justified error → justified' error) :
    Pass.Judges good justified' action := by
  intro progress
  have judged := judges progress
  cases outcome : action progress with
  | ok item after =>
      rw [outcome] at judged
      exact judged
  | error error after =>
      rw [outcome] at judged
      exact weaker error judged

theorem imp {action : Pass Item} {better : Item → Prop}
    (judges : Pass.Judges better justified action) (weaker : ∀ item, better item → good item) :
    Pass.Judges good justified action := by
  rw [← bind_pure action]
  exact judges.bind fun item holds => .pure (weaker item holds)

theorem with_frame {action : Pass Item} (judges : Pass.Judges good justified action)
    (kind : FrameKind) : Pass.Judges good justified (Pass.withFrame kind action) := by
  intro progress
  have judged := judges { progress with scopes := progress.scopes.push kind }
  unfold Pass.withFrame
  cases outcome : action { progress with scopes := progress.scopes.push kind } with
  | ok item after =>
      rw [outcome] at judged
      exact judged
  | error error after =>
      rw [outcome] at judged
      exact judged

theorem check_arity {name : String} {arity : Arity} {node : Tree}
    (refused : arity.accepts node.children.length = false →
      justified (.arityMismatch name arity node.children.length node.position)) :
    Pass.Judges (fun _ => arity.accepts node.children.length = true) justified
      (checkArity name arity node) := by
  unfold checkArity
  cases accepted : arity.accepts node.children.length with
  | true => exact .pure rfl
  | false => exact .throw (refused accepted)

end Pass.Judges

section Visits

variable {optimizer : Optimizer} {revisit : Option (Tree → Pass Tree)} {nodes : List Tree}

def Judged (optimizer : Optimizer) (revisit : Option (Tree → Pass Tree)) (node : Tree) : Prop :=
  Pass.JudgesNode optimizer.registry node (optimizer.visit revisit node)

def AnyBlamed (registry : Registry) (nodes : List Tree) (error : CompileError) : Prop :=
  ∃ node ∈ nodes, node.Blamed registry error

theorem AnyBlamed.head {registry : Registry} {node : Tree} {rest : List Tree}
    (error : CompileError) (blamed : node.Blamed registry error) :
    AnyBlamed registry (node :: rest) error :=
  ⟨node, List.mem_cons_self, blamed⟩

theorem AnyBlamed.tail {registry : Registry} {node : Tree} {rest : List Tree}
    (error : CompileError) (blamed : AnyBlamed registry rest error) :
    AnyBlamed registry (node :: rest) error := by
  rcases blamed with ⟨other, member, blamed⟩
  exact ⟨other, List.mem_cons_of_mem _ member, blamed⟩

theorem AnyBlamed.parent {registry : Registry} {payload : Payload} {position : Position}
    {optimized : Bool} {facts : Facts} {children : List Tree} (error : CompileError)
    (blamed : AnyBlamed registry children error) :
    Tree.Blamed registry ⟨payload, position, optimized, facts, children⟩ error := by
  rcases blamed with ⟨child, member, blamed⟩
  exact blamed.of_child member

theorem visit_all_judges (judged : ∀ node ∈ nodes, Judged optimizer revisit node) :
    Pass.Judges (List.Forall₂ (Reduces optimizer.registry) nodes)
      (AnyBlamed optimizer.registry nodes) (optimizer.visitAll revisit nodes) := by
  induction nodes with
  | nil => exact .pure .nil
  | cons node rest induction =>
      rw [List.forall_mem_cons] at judged
      rw [Optimizer.visitAll]
      apply (judged.1.mono AnyBlamed.head).bind
      intro node' reduces
      apply ((induction judged.2).mono AnyBlamed.tail).bind
      exact fun rest' others => .pure (.cons reduces others)

theorem visit_branches_judges (nodes : List Tree)
    (judged : ∀ node ∈ nodes, Judged optimizer revisit node) :
    Pass.Judges (Resolves optimizer.registry nodes) (AnyBlamed optimizer.registry nodes)
      (optimizer.visitBranches revisit nodes) := by
  match nodes with
  | [] => exact .pure fun context run _ => Run.Delivers.pure Value.void
  | [otherwise] =>
      rw [Optimizer.visitBranches]
      apply ((judged otherwise (List.mem_singleton_self _)).mono AnyBlamed.head).bind
      intro branch reduces
      refine .pure ⟨reduces.flat, fun value shown context run same => ?_⟩
      rw [evaluateBranches]
      exact reduces.yields value shown context run same
  | condition :: branch :: rest =>
      rw [List.forall_mem_cons, List.forall_mem_cons] at judged
      rw [Optimizer.visitBranches]
      apply (judged.1.mono AnyBlamed.head).bind
      intro condition' decided
      have taking := judged.2.1.mono fun error blamed =>
        (AnyBlamed.tail error (AnyBlamed.head error blamed) :
          AnyBlamed optimizer.registry (condition :: branch :: rest) error)
      have passing := (visit_branches_judges rest judged.2.2).mono fun error blamed =>
        (AnyBlamed.tail error (AnyBlamed.tail error blamed) :
          AnyBlamed optimizer.registry (condition :: branch :: rest) error)
      cases decision : optimizer.decide? condition' with
      | none =>
          apply taking.bind
          intro branch' _
          apply passing.bind
          exact fun rest' _ => .pure trivial
      | some truth =>
          rcases decide_eq_some optimizer decision with ⟨value, literal, same⟩
          have shown : condition'.value? = some value := congrArg Payload.value? literal
          cases truth with
          | true =>
              apply taking.bind
              intro branch' reduces
              exact .pure ⟨reduces.flat, fun result found =>
                branches_yield_taken (decided.yields value shown) same
                  (reduces.yields result found)⟩
          | false =>
              exact passing.imp fun branches resolves => resolves.mono fun _ yields =>
                branches_yield_passed (decided.yields value shown) same yields

/-- What can be wrong with the parts of a definition after its name: something in one of them, or
the shape of a parameter. -/
def PartsBlamed (registry : Registry) (parts : List Tree) (error : CompileError) : Prop :=
  AnyBlamed registry parts error ∨
    ∃ part ∈ parts.dropLast, part.parameter? = none ∧
      error = .malformed (.parameter part.text) part.position

theorem PartsBlamed.tail {registry : Registry} {param next : Tree} {rest : List Tree}
    (error : CompileError) (blamed : PartsBlamed registry (next :: rest) error) :
    PartsBlamed registry (param :: next :: rest) error := by
  rcases blamed with blamed | ⟨part, member, shape, same⟩
  · exact Or.inl (AnyBlamed.tail error blamed)
  · exact Or.inr ⟨part, List.mem_cons_of_mem _ member, shape, same⟩

theorem check_parameter_judges {registry : Registry} {param next : Tree} {rest : List Tree} :
    Pass.Judges (fun _ => True) (PartsBlamed registry (param :: next :: rest))
      (checkParameter param) := by
  unfold checkParameter
  cases shape : param.parameter? with
  | some _ => exact .pure trivial
  | none => exact .throw (Or.inr ⟨param, List.mem_cons_self, shape, rfl⟩)

theorem visit_parts_judges (parts : List Tree)
    (judged : ∀ part ∈ parts, Judged optimizer revisit part) :
    Pass.Judges (fun _ => True) (PartsBlamed optimizer.registry parts)
      (optimizer.visitParts revisit parts) := by
  match parts with
  | [] => exact .pure trivial
  | [body] =>
      have visited := (judged body (List.mem_singleton_self _)).with_frame .procedure
      rw [Optimizer.visitParts]
      apply (visited.mono fun error blamed => Or.inl (AnyBlamed.head error blamed)).bind
      exact fun _ _ => .pure trivial
  | param :: next :: rest =>
      rw [List.forall_mem_cons] at judged
      have others := visit_parts_judges (next :: rest) judged.2
      rw [Optimizer.visitParts]
      apply check_parameter_judges.bind
      intro _ _
      apply (judged.1.mono fun error blamed => Or.inl (AnyBlamed.head error blamed)).bind
      intro _ _
      apply (others.mono PartsBlamed.tail).bind
      exact fun _ _ => .pure trivial

section Definitions

variable {name : String} {position : Position} {facts : Facts} {children : List Tree}
  (special : SpecialForm.ofName? name = some .procedure)
  (accepted : SpecialForm.procedure.arity.accepts children.length = true)

include special accepted

theorem definition_written {registry : Registry}
    (malformed : ∀ nameNode rest, children = nameNode :: rest →
      nameNode.procedureName?.filter Tree.isProcedureName ≠ none →
      ∃ part ∈ rest.dropLast, part.parameter? = none) :
    Tree.NeverSucceeds registry ⟨.call name, position, false, facts, children⟩ := by
  intro context run machine value after _ done
  rw [evaluate_form _ _ _ _ _ _ special accepted] at done
  have defined := (unless_interrupted_ok done).2
  cases children with
  | nil => simp [SpecialForm.arity] at accepted
  | cons nameNode rest =>
      rcases evaluate_definition_ok _ _ _ defined with ⟨given, params, between, named, evaluated, -⟩
      rcases malformed nameNode rest rfl (by simp [named]) with ⟨part, member, shape⟩
      exact evaluate_params_written evaluated part member shape

theorem visit_definition_judges (judged : ∀ child ∈ children, Judged optimizer revisit child) :
    Pass.Judges (fun _ => True)
      (Tree.Blamed optimizer.registry ⟨.call name, position, false, facts, children⟩)
      (optimizer.visitDefinition revisit children) := by
  cases children with
  | nil => exact .pure trivial
  | cons nameNode rest =>
      rw [List.forall_mem_cons] at judged
      rw [Optimizer.visitDefinition]
      have normalized : Pass.Judges (fun _ : Tree => True)
          (Tree.Blamed optimizer.registry ⟨.call name, position, false, facts, nameNode :: rest⟩)
          (normalizeName nameNode) := by
        unfold normalizeName
        cases named : nameNode.procedureName?.filter Tree.isProcedureName with
        | some _ => exact .pure trivial
        | none =>
            refine .throw (Blames.of_check rfl ?_ (Or.inr ⟨_, List.mem_cons_self, rfl⟩)).blamed
            refine definition_written special accepted fun _ _ same valid => ?_
            cases same
            exact absurd named valid
      apply normalized.bind
      intro _ _
      apply ((visit_parts_judges rest judged.2).mono fun error justified => ?_).bind
      · exact fun _ _ => .pure trivial
      · rcases justified with ⟨part, member, blamed⟩ | ⟨part, member, shape, rfl⟩
        · exact blamed.of_child (List.mem_cons_of_mem _ member)
        · refine (Blames.of_check rfl ?_ (Or.inr ⟨part, ?_, rfl⟩)).blamed
          · refine definition_written special accepted fun _ _ same _ => ?_
            cases same
            exact ⟨part, member, shape⟩
          · exact List.mem_cons_of_mem _ ((List.dropLast_sublist rest).subset member)

theorem define_judges (judged : ∀ child ∈ children, Judged optimizer revisit child)
    (placement : Placement) :
    Pass.JudgesNode optimizer.registry ⟨.call name, position, false, facts, children⟩
      (optimizer.visitDefinition revisit children >>= fun parts =>
        optimizer.recordDefinition placement ⟨.call name, position, true, {}, parts⟩) := by
  apply (visit_definition_judges special accepted judged).bind
  intro parts _
  have stays : ∀ parts, Reduces optimizer.registry
      ⟨.call name, position, false, facts, children⟩
      ⟨.call name, position, true, {}, parts⟩ := fun _ => .of_call (by rw [special]; rfl)
  intro progress
  cases parts with
  | nil => exact stays []
  | cons nameNode rest =>
      simp only [Optimizer.recordDefinition]
      cases nameNode.procedureName? with
      | none => exact stays _
      | some _ =>
          cases rest.getLast? with
          | none => exact stays _
          | some _ => exact stays _

end Definitions

/-- Whichever way the first statement is gone about, what is left of it goes before the others. -/
theorem statements_cons_judges {node : Tree} {rest : List Tree} {action : Pass Tree}
    (first : Pass.JudgesNode optimizer.registry node action)
    (others : Pass.Judges
      (fun parts => ∃ visited, List.Forall₂ (Reduces optimizer.registry) rest visited ∧
        parts = visited.flatMap splice)
      (AnyBlamed optimizer.registry rest) (optimizer.visitStatements revisit rest)) :
    Pass.Judges
      (fun parts => ∃ visited,
        List.Forall₂ (Reduces optimizer.registry) (node :: rest) visited ∧
          parts = visited.flatMap splice)
      (AnyBlamed optimizer.registry (node :: rest))
      (action >>= fun node' => optimizer.visitStatements revisit rest >>= fun rest' =>
        pure (splice node' ++ rest')) := by
  apply (first.mono AnyBlamed.head).bind
  intro node' reduces
  apply (others.mono AnyBlamed.tail).bind
  rintro rest' ⟨visited, reduce, rfl⟩
  exact .pure ⟨node' :: visited, .cons reduces reduce, rfl⟩

theorem visit_statements_judges
    (judged : ∀ node ∈ nodes, node.Everywhere (Judged optimizer revisit))
    (fresh : ∀ node ∈ nodes, node.optimized = false) :
    Pass.Judges
      (fun parts => ∃ visited, List.Forall₂ (Reduces optimizer.registry) nodes visited ∧
        parts = visited.flatMap splice)
      (AnyBlamed optimizer.registry nodes) (optimizer.visitStatements revisit nodes) := by
  induction nodes with
  | nil => exact .pure ⟨[], .nil, rfl⟩
  | cons node rest induction =>
      rw [List.forall_mem_cons] at judged fresh
      have others := induction judged.2 fresh.2
      by_cases special : node.specialForm? = some .procedure
      · rcases node with ⟨payload, position, optimized, facts, children⟩
        cases payload with
        | literal | «variable» => cases special
        | call name =>
            replace special : SpecialForm.ofName? name = some .procedure := special
            cases fresh.1
            have inside := fun child member => (judged.1.inside child member).here
            have first : Pass.JudgesNode optimizer.registry
                ⟨.call name, position, false, facts, children⟩ _ :=
              (Pass.Judges.check_arity (mismatch_blamed special)).bind
                fun _ accepted => define_judges special accepted inside .direct
            have step := statements_cons_judges first others
            simp only [bind_assoc] at step
            rw [visit_definition_statement_eq _ _ special]
            exact step
      · rw [visit_statement_eq _ _ special]
        exact statements_cons_judges judged.1.here others

end Visits

section Calls

variable {registry : Registry} {name : String} {builtin : Builtin}
  (plain : SpecialForm.ofName? name = none) (unnamed : Tree.isProcedureName name = false)
  (found : registry.find? name = some builtin) {position : Position} {facts : Facts}
  {children children' : List Tree} (reduce : List.Forall₂ (Reduces registry) children children')

include plain unnamed found reduce

/-- A call has no value if the function fails on all values that its arguments can have. -/
theorem call_never_succeeds
    (fails : ∀ env values store, List.Forall₂ Tree.Allows children' values →
      builtin.arity.accepts values.length = true →
        ∃ fault after, builtin.run ⟨position, some env, registry.catalogue⟩ values store =
          .error fault after) :
    Tree.NeverSucceeds registry ⟨.call name, position, false, facts, children⟩ := by
  rintro context run machine value after same done
  subst same
  rw [evaluate_builtin _ _ _ _ _ _ plain unnamed found] at done
  rcases bind_eq_ok (unless_interrupted_ok done).2 with ⟨values, between, evaluated, called⟩
  cases accepted : builtin.arity.accepts values.length with
  | false =>
      rw [call_builtin_refused accepted] at called
      cases called
  | true =>
      have allow := evaluate_all_allows rfl reduce evaluated
      rcases fails between.env values between.store allow accepted with ⟨fault, store, failed⟩
      rw [call_builtin_accepted accepted, failed] at called
      cases called

/-- A call of constants that depends on nothing else ends the same way everywhere. -/
theorem constant_call_ends (accepted : builtin.arity.accepts children'.length = true)
    (constant : children'.all Tree.isConstant = true) {result : Except Fault Value}
    (same : ∀ position env (store : Store), ∃ after : Store,
      (store.interrupted = false → after.interrupted = false) ∧
      builtin.run ⟨position, env, registry.catalogue⟩ (children'.filterMap Tree.value?) store =
        Action.ofExcept result after)
    {context : Context} {run : Tree → Run Value} (here : context.registry = registry)
    {machine : Machine} (clear : machine.store.interrupted = false) :
    ∃ after : Machine, after.store.interrupted = false ∧
      evaluate context run ⟨.call name, position, false, facts, children⟩ machine =
        match result with
        | .ok value => .ok value after
        | .error fault => .error (.builtin name fault position) after := by
  subst here
  rw [evaluate_builtin _ _ _ _ _ _ plain unnamed found, unless_interrupted_clear _ clear]
  have delivers : Run.Delivers (children'.filterMap Tree.value?)
      (evaluateAll context run children) :=
    evaluate_all_delivers rfl (Reduces.values reduce constant)
  rcases delivers machine clear with ⟨between, evaluated, clear'⟩
  have counted : builtin.arity.accepts (children'.filterMap Tree.value?).length = true := by
    rw [values_length constant]
    exact accepted
  rw [bind_of_ok evaluated, call_builtin_accepted counted]
  rcases same position (some between.env) between.store with ⟨store, kept, ran⟩
  refine ⟨{ between with store }, kept clear', ?_⟩
  rw [ran]
  cases result <;> rfl

end Calls

section Folding

variable {optimizer : Optimizer} (folds : optimizer.registry.FoldsByArguments)
  (honest : optimizer.registry.ChecksHonestly) {revisit : Option (Tree → Pass Tree)}
  {name : String} (plain : SpecialForm.ofName? name = none)
  (unnamed : Tree.isProcedureName name = false) {position : Position} {facts : Facts}
  {children children' : List Tree}
  (reduce : List.Forall₂ (Reduces optimizer.registry) children children')

include folds plain unnamed reduce in
theorem fold_checked_judges {builtin : Builtin}
    (found : optimizer.registry.find? name = some builtin)
    (accepted : builtin.arity.accepts children'.length = true) :
    Pass.JudgesNode optimizer.registry ⟨.call name, position, false, facts, children⟩
      (foldChecked optimizer name builtin ⟨.call name, position, false, {}, children'⟩) := by
  by_cases allowed : (optimizer.options.foldConstants && children'.all Tree.isConstant &&
      builtin.isFoldable children') = true
  · have folds' := @fold_checked_folds optimizer name builtin
      ⟨.call name, position, false, {}, children'⟩ allowed
    simp only [Bool.and_eq_true] at allowed
    rcases folds name builtin children' found allowed.1.2 allowed.2 with ⟨result, same⟩
    have ends := @constant_call_ends _ _ _ plain unnamed found position facts _ _ reduce accepted
      allowed.1.2 result same
    intro progress
    rcases same position none progress.store with ⟨store, -, ran⟩
    rw [folds', ran]
    cases result with
    | ok value =>
        refine Reduces.of_literal (fun context run here machine clear => ?_) position
        rcases ends here clear with ⟨after, clear', ended⟩
        exact ⟨after, ended, clear'⟩
    | error fault =>
        have fails : Tree.AlwaysFails optimizer.registry
            ⟨.call name, position, false, facts, children⟩ (.builtin name fault position) := by
          intro context run machine here clear
          rcases ends here clear with ⟨after, -, ended⟩
          exact ⟨after, ended⟩
        refine Blames.blamed ⟨fails.never_succeeds, Or.inl rfl, fun _ _ _ same => ?_⟩
        cases same
        exact fails
  · rw [fold_checked_stays _ allowed]
    exact .pure (.of_call (by rw [plain]; rfl))

include honest plain unnamed reduce in
theorem check_statically_judges {builtin : Builtin}
    (found : optimizer.registry.find? name = some builtin)
    (accepted : builtin.arity.accepts children'.length = true) :
    Pass.Judges (fun _ => True)
      (Tree.Blamed optimizer.registry ⟨.call name, position, false, facts, children⟩)
      (checkStatically optimizer name builtin ⟨.call name, position, false, {}, children'⟩) := by
  unfold checkStatically
  cases check : builtin.staticCheck with
  | none => exact .pure trivial
  | some test =>
      dsimp only
      cases verdict : test children' optimizer.registry.catalogue with
      | ok _ => exact .pure trivial
      | error fault =>
          refine .throw (Blames.of_check rfl ?_ (Or.inl rfl)).blamed
          exact call_never_succeeds plain unnamed found reduce fun env values store allow _ =>
            honest name builtin test children' fault found check accepted verdict position env
              values store allow

include folds honest plain unnamed reduce in
theorem fold_call_judges :
    Pass.JudgesNode optimizer.registry ⟨.call name, position, false, facts, children⟩
      (optimizer.foldCall name ⟨.call name, position, false, {}, children'⟩) := by
  cases found : optimizer.registry.find? name with
  | none =>
      rw [fold_call_missing _ found]
      refine .throw (Blames.of_check rfl ?_ (Or.inl rfl)).blamed
      intro context run machine value after here done
      rw [evaluate_unknown _ _ _ _ _ _ plain unnamed (here ▸ found)] at done
      cases (unless_interrupted_ok done).2
  | some builtin =>
      rw [fold_call_eq _ found]
      refine (Pass.Judges.check_arity fun refused => ?_).bind fun _ accepted => ?_
      · refine (Blames.of_check rfl ?_ (Or.inl rfl)).blamed
        refine call_never_succeeds plain unnamed found reduce fun _ _ _ allow counted => ?_
        rw [← allow.length_eq] at counted
        exact absurd (refused.symm.trans counted) (by decide)
      · refine (check_statically_judges honest plain unnamed reduce found accepted).bind ?_
        exact fun _ _ => fold_checked_judges folds plain unnamed reduce found accepted

include folds honest plain reduce in
theorem visit_call_judges (off : optimizer.options.inlineProcedures = false) :
    Pass.JudgesNode optimizer.registry ⟨.call name, position, false, facts, children⟩
      (visitCall optimizer revisit name ⟨.call name, position, false, {}, children'⟩) := by
  unfold visitCall
  cases named : Tree.isProcedureName name with
  | true =>
      intro progress
      rw [if_pos rfl, inline_call_off _ _ off]
      exact Reduces.of_call (by rw [plain]; rfl)
  | false => exact fold_call_judges folds honest plain named reduce

end Folding

section Forms

variable {optimizer : Optimizer} {revisit : Option (Tree → Pass Tree)} {name : String}
  {position : Position} {facts : Facts} {children : List Tree} {form : SpecialForm}

theorem check_assignment_judges (special : SpecialForm.ofName? name = some .assignment)
    (accepted : SpecialForm.assignment.arity.accepts children.length = true) :
    Pass.Judges (fun _ => True)
      (Tree.Blamed optimizer.registry ⟨.call name, position, false, facts, children⟩)
      (checkAssignment children) := by
  rcases children with _ | ⟨⟨payload, place, settled, noted, nodes⟩, rest⟩
  · exact .pure trivial
  · cases payload with
    | «variable» _ => exact .pure trivial
    | literal _ | call _ =>
        refine .throw (Blames.of_check rfl ?_ (Or.inr ⟨_, List.mem_cons_self, rfl⟩)).blamed
        intro context run machine value after _ done
        rw [evaluate_form _ _ _ _ _ _ special accepted] at done
        cases (unless_interrupted_ok done).2

theorem form_judges (special : SpecialForm.ofName? name = some form)
    (accepted : form.arity.accepts children.length = true)
    (judged : ∀ child ∈ children, child.Everywhere (Judged optimizer revisit))
    (fresh : ∀ child ∈ children, child.optimized = false) :
    Pass.JudgesNode optimizer.registry ⟨.call name, position, false, facts, children⟩
      (visitForm optimizer revisit ⟨.call name, position, false, facts, children⟩ form) := by
  have here := fun child member => (judged child member).here
  have stays : form.isSequence = false → ∀ parts, Reduces optimizer.registry
      ⟨.call name, position, false, facts, children⟩ ⟨.call name, position, false, {}, parts⟩ :=
    fun other _ => .of_call (by rw [special]; exact other)
  have all : Pass.Judges _
      (Tree.Blamed optimizer.registry ⟨.call name, position, false, facts, children⟩) _ :=
    (visit_all_judges here).mono AnyBlamed.parent
  cases form with
  | autoConcat | sequence =>
      refine (((visit_statements_judges judged fresh).with_frame _).mono AnyBlamed.parent).bind ?_
      rintro parts ⟨visited, reduce, rfl⟩
      refine .pure (collapse_reduces reduce (fun values yields context run same => ?_) position)
      rw [evaluate_sequence_node _ _ _ _ _ _ special rfl]
      exact (evaluate_sequence_delivers same yields .void).unless_interrupted
  | conditional | choice =>
      refine ((visit_branches_judges children here).mono AnyBlamed.parent).bind ?_
      intro branches resolves
      refine .pure (resolve_reduces (by rw [special]; rfl) rfl resolves ?_)
      intro value yields context run same
      rw [evaluate_branch_node _ _ _ _ _ _ special (by simp) accepted]
      exact (yields context run same).unless_interrupted
  | procedure => exact define_judges special accepted here .nested
  | assignment =>
      refine (check_assignment_judges special accepted).bind fun _ _ => ?_
      exact all.bind fun parts _ => .pure (stays rfl parts)
  | closure => exact (all.with_frame .closure).bind fun parts _ => .pure (stays rfl parts)
  | returning | execution => exact all.bind fun parts _ => .pure (stays rfl parts)

end Forms

section Scripts

variable {optimizer : Optimizer} {revisit : Option (Tree → Pass Tree)}

/-- No node of a tree is decided on wrongly, by induction on the tree. -/
theorem visit_judges (off : optimizer.options.inlineProcedures = false)
    (folds : optimizer.registry.FoldsByArguments) (honest : optimizer.registry.ChecksHonestly)
    {tree : Tree} (fresh : tree.Everywhere fun node => node.optimized = false) :
    tree.Everywhere (Judged optimizer revisit) := by
  induction fresh with
  | @node tree unsettled below induction =>
      refine .node ?_ induction
      rcases tree with ⟨payload, position, optimized, facts, children⟩
      cases unsettled
      have here := fun child member => (induction child member).here
      unfold Judged
      cases payload with
      | literal value =>
          intro progress
          rw [visit_leaf _ _ rfl rfl]
          refine ⟨nofun, fun shown same => ?_⟩
          cases same
          exact Tree.Yields.literal _ _ _ _ _ _
      | «variable» name =>
          intro progress
          rw [visit_leaf _ _ rfl rfl]
          exact ⟨nofun, nofun⟩
      | call name =>
          cases special : SpecialForm.ofName? name with
          | some form =>
              rw [visit_form_eq _ _ special]
              refine (Pass.Judges.check_arity (mismatch_blamed special)).bind fun _ accepted => ?_
              refine (form_judges special accepted induction
                fun child member => (below child member).here).bind fun out reduces => ?_
              exact .pure (reduces.settle true)
          | none =>
              rw [visit_call_eq _ _ special]
              refine ((visit_all_judges here).mono AnyBlamed.parent).bind fun children' reduce => ?_
              refine (visit_call_judges folds honest special reduce off).bind fun out reduces => ?_
              exact .pure (reduces.settle true)

theorem pass_judges (off : optimizer.options.inlineProcedures = false)
    (folds : optimizer.registry.FoldsByArguments) (honest : optimizer.registry.ChecksHonestly)
    {tree : Tree} (fresh : tree.Everywhere fun node => node.optimized = false) (depth : Nat) :
    Pass.JudgesNode optimizer.registry tree (optimizer.pass depth tree) := by
  cases depth with
  | zero => exact (visit_judges off folds honest fresh).here
  | succ depth => exact (visit_judges off folds honest fresh).here

/-- If a script is rejected, while no calls are replaced, some part of it has no value in any
environment, and the error points to that part or to one of its children. If the error comes from
folding a call, evaluating the part fails for the same reason. -/
theorem rejection_justified {registry : Registry} {options : OptimizeOptions}
    (off : options.inlineProcedures = false) (folds : registry.FoldsByArguments)
    (honest : registry.ChecksHonestly) {tree : Tree}
    (fresh : tree.Everywhere fun node => node.optimized = false) {depth : Nat}
    {store store' : Store} {error : CompileError}
    (rejected :
      runVisit (Optimizer.pass ⟨registry, options⟩ depth) tree store = .error error store') :
    ∃ part : Tree, part.Subtree tree ∧
      (∀ context machine value after, context.registry = registry →
        part.eval context machine ≠ .ok value after) ∧
      (error.position = part.position ∨
        ∃ child ∈ part.children, error.position = child.position) ∧
      ∀ name fault position, error = .foldFailed name fault position →
        ∀ context machine, context.registry = registry → machine.store.interrupted = false →
          ∃ after, part.eval context machine = .error (.builtin name fault position) after := by
  let optimizer : Optimizer := ⟨registry, options⟩
  have judged : Pass.JudgesNode registry tree (optimizer.pass depth tree) :=
    pass_judges off folds honest fresh depth
  have verdict := judged ⟨Scopes.initial, store⟩
  unfold runVisit at rejected
  split at rejected
  · cases rejected
  · rename_i found after visited
    cases rejected
    rw [visited] at verdict
    rcases verdict with ⟨part, below, never, place, folding⟩
    exact ⟨part, below, fun context machine value after => never context _ machine value after,
      place, fun name fault position same context machine =>
        folding name fault position same context _ machine⟩

end Scripts

section Prelude

open Prelude

theorem field_unreadable {node : Tree} {check : Except Fault Unit} {fault : Fault}
    (absent : node.value? = none → check = .ok ())
    (present : ∀ field, node.value? = some field →
      check = (readField field.text >>= fun _ => .ok ()))
    (rejected : check = .error fault) :
    ∃ field fault', node.value? = some field ∧ readField field.text = .error fault' := by
  cases shown : node.value? with
  | none => cases (absent shown).symm.trans rejected
  | some field =>
      rw [present field shown] at rejected
      cases read : readField field.text with
      | error fault' => exact ⟨field, fault', rfl, read⟩
      | ok part =>
          rw [read] at rejected
          cases rejected

theorem check_docs_error {first second : Tree} {catalogue : Catalogue} {fault : Fault}
    (rejected : checkDocs [first, second] catalogue = .error fault) :
    (∃ element name, first.value? = some element ∧ Element.ofName element.text = .function name ∧
      catalogue.docs? name = none) ∨
    ∃ field fault', second.value? = some field ∧ readField field.text = .error fault' := by
  have asked : [first, second][1]?.bind Tree.value? = second.value? := rfl
  unfold checkDocs at rejected
  simp only [List.head?_cons, Option.bind_some, asked] at rejected
  cases shown : first.value? with
  | none =>
      simp only [shown] at rejected
      exact Or.inr (field_unreadable (fun absent => by rw [absent]; rfl)
        (fun field present => by rw [present]; rfl) rejected)
  | some element =>
      cases kind : Element.ofName element.text with
      | «variable» | procedure =>
          simp only [shown, kind] at rejected
          exact Or.inr (field_unreadable (fun absent => by rw [absent]; rfl)
            (fun field present => by rw [present]; rfl) rejected)
      | function name =>
          simp only [shown, kind] at rejected
          split at rejected
          · rename_i missing
            rw [Bool.and_eq_true, Bool.not_eq_true', Option.isNone_iff_eq_none] at missing
            refine Or.inl ⟨element, name, rfl, kind, ?_⟩
            have unlisted : Bindings.find? catalogue name = none := by
              simpa [Bindings.contains] using missing.1
            rw [Catalogue.docs?, missing.2]
            exact congrArg (Option.map _) unlisted
          · exact Or.inr (field_unreadable (fun absent => by rw [absent]; rfl)
              (fun field present => by rw [present]; rfl) rejected)

theorem check_docs_honest {first second : Tree} {catalogue : Catalogue} {fault : Fault}
    (rejected : checkDocs [first, second] catalogue = .error fault) {element field : Value}
    (allows : first.Allows element) (allows' : second.Allows field) (position : Position)
    (env : Option Environment) :
    ∃ fault', reflectDocs ⟨position, env, catalogue⟩ [element, field] = .error fault' := by
  unfold reflectDocs
  simp only [twoArguments, except_ok_bind]
  rcases check_docs_error rejected with ⟨_, name, shown, isFunction, missing⟩ |
    ⟨_, fault', shown, unreadable⟩
  · rw [← allows _ shown] at isFunction
    cases readField field.text with
    | error fault' => exact ⟨fault', rfl⟩
    | ok part =>
        rw [except_ok_bind, isFunction]
        dsimp only
        rw [missing]
        exact ⟨_, rfl⟩
  · rw [← allows' _ shown] at unreadable
    rw [unreadable]
    exact ⟨fault', rfl⟩

theorem Prelude.registry_folds_by_arguments : Prelude.registry.FoldsByArguments :=
  (Registry.of_list_faithful builtins_reliable).by_arguments

/-- Only one function of the prelude has a static check. -/
theorem Prelude.registry_checks_honestly : Prelude.registry.ChecksHonestly := by
  intro name builtin check nodes fault found checks counted rejected position env values store allow
  let refuses : Builtin → Prop := fun builtin => builtin.staticCheck = some check →
    builtin.arity.accepts nodes.length = true → ∃ fault' after,
      builtin.run ⟨position, some env, Prelude.registry.catalogue⟩ values store =
        .error fault' after
  have member : builtin ∈ builtins := (Registry.find_of_list found).1
  have all : ∀ builtin ∈ builtins, refuses builtin := by
    refine builtins_hold ?_ ?_ ?_ ?_
    · exact fun _ _ _ _ _ _ _ checks => nomatch checks
    · exact fun _ checks => nomatch checks
    · exact fun _ checks => nomatch checks
    · intro docs checks counted
      cases checks
      have two : nodes.length = 2 := by simpa [Arity.accepts] using counted
      rcases List.length_eq_two.mp two with ⟨first, second, rfl⟩
      cases allow with
      | cons allows rest =>
        cases rest with
        | cons allows' none =>
          cases none
          rcases check_docs_honest rejected allows allows' position (some env) with
            ⟨fault', refused⟩
          exact ⟨fault', store, congrArg (Action.ofExcept · store) refused⟩
  exact all builtin member checks counted

def remainder : Tree :=
  let number (value : Int64) : Tree := .literal (.int value) ⟨2, 8, none⟩
  let nothing : Tree := .call "subtract" [number 2, number 2] ⟨2, 11, none⟩
  .call "msg" [.call "modulo" [number 7, nothing] ⟨2, 1, none⟩] ⟨1, 1, none⟩

theorem rejection_justified_remainder :
    ∃ fault store', Optimizer.optimize ⟨Prelude.registry, { inlineProcedures := false }⟩
        remainder {} = .error (.foldFailed "modulo" fault ⟨2, 1, none⟩) store' ∧
      ∃ part : Tree, part.Subtree remainder ∧
        ∃ after, part.eval .standard {} = .error (.builtin "modulo" fault ⟨2, 1, none⟩) after := by
  have fresh : remainder.Everywhere fun node => node.optimized = false := by decide
  have rejected : ∃ fault store',
      Optimizer.optimize ⟨Prelude.registry, { inlineProcedures := false }⟩ remainder {} =
        .error (.foldFailed "modulo" fault ⟨2, 1, none⟩) store' := ⟨_, _, rfl⟩
  rcases rejected with ⟨fault, store', rejected⟩
  rcases rejection_justified rfl Prelude.registry_folds_by_arguments
    Prelude.registry_checks_honestly fresh rejected with ⟨part, below, -, -, folding⟩
  exact ⟨fault, store', rejected, part, below, folding _ _ _ rfl .standard {} rfl rfl⟩

end Prelude

end TreeScript
