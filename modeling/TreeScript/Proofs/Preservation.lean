import TreeScript.Proofs.Simulation
import TreeScript.Proofs.Standard
/-!
# Optimizing preserves what scripts do

Without inlining, a script and its optimized form end the same way, also where they fail. With
inlining they do the same wherever the script succeeds, and both fail where it fails for another
reason than the limit on calls, which inlining saves.

A function sees the environment of its call, and with it the bodies of procedures and closures,
which the optimizer changes. So the functions must not look into bodies: whatever bodies stand for
each other, what comes out must be the same up to those bodies.
-/

namespace TreeScript

set_option autoImplicit false

namespace Bodies

def any : Bodies := ⟨fun _ _ => True, fun _ _ => True⟩

def anyProcedures : Bodies := ⟨Eq, fun _ _ => True⟩

end Bodies

section Weakening

variable {bodies bodies' : Bodies}

structure Bodies.Weaker (bodies bodies' : Bodies) : Prop where
  closures : ∀ body body', bodies.closures body body' → bodies'.closures body body'
  procedures : ∀ body body', bodies.procedures body body' → bodies'.procedures body body'

theorem Bindings.Like.mono {Item : Type} {like like' : Item → Item → Prop}
    {first second : Bindings Item} (alike : first.Like like second)
    (weaker : ∀ item item', like item item' → like' item item') : first.Like like' second :=
  List.Forall₂.imp (fun _ _ same => ⟨same.1, weaker _ _ same.2⟩) alike

theorem Environment.Like.mono (weaker : bodies.Weaker bodies') {env env' : Environment}
    (like : env.Like bodies env') : env.Like bodies' env' :=
  { like with
    vars := like.vars.mono fun _ _ => Value.Like.mono weaker.closures
    procedures := like.procedures.mono fun _ _ same =>
      { same with
        params := same.params.mono weaker.closures
        body := weaker.procedures _ _ same.body } }

theorem Machine.Matches.mono (weaker : bodies.Weaker bodies') {machine machine' : Machine}
    (matched : machine.Matches bodies machine') : machine.Matches bodies' machine' :=
  ⟨⟨matched.like.env.mono weaker,
    { matched.like.store with
      captured := matched.like.store.captured.imp fun _ _ => Environment.Like.mono weaker }⟩,
    matched.clear⟩

theorem Conforms.mono (weaker : bodies.Weaker bodies') {lenient : Bool}
    {outcome outcome' : EStateM.Result EvalError Machine Value}
    (conforms : Conforms lenient bodies (Value.Like bodies) outcome outcome') :
    Conforms lenient bodies' (Value.Like bodies') outcome outcome' := by
  cases conforms with
  | ok related matched => exact .ok (related.mono weaker.closures) (matched.mono weaker)
  | returned related matched =>
      exact .returned (related.mono weaker.closures) (matched.mono weaker)
  | same other matched => exact .same other (matched.mono weaker)
  | failed on ordinary ordinary' => exact .failed on ordinary ordinary'
  | excused on => exact .excused on

end Weakening

namespace Rules

def exact (closures : Bool) : Rules := { inlining := false, closures, distinct := false }

def replacing : Rules := { inlining := true, closures := false, distinct := true }

end Rules

structure Tree.Unvisited (node : Tree) : Prop where
  fresh : node.optimized = false
  bare : node.BareLeaf

instance : DecidablePred Tree.Unvisited := fun node =>
  decidable_of_iff (node.optimized = false ∧ node.BareLeaf)
    ⟨fun holds => ⟨holds.1, holds.2⟩, fun holds => ⟨holds.fresh, holds.bare⟩⟩

def greeting : Tree :=
  let greet : Tree := .call SpecialForm.returning.name
    [.call "concat" [.literal (.string "hello ") .unknown, .node (.variable "@name") [] .unknown]
      .unknown] .unknown
  let definition : Tree := .call SpecialForm.procedure.name
    [.literal (.string "_greet") .unknown, .node (.variable "@name") [] .unknown, greet] .unknown
  let condition : Tree := .call "not" [.literal .null .unknown] .unknown
  let message : Tree :=
    .call "msg" [.call "_greet" [.literal (.string "you") .unknown] .unknown] .unknown
  .call SpecialForm.sequence.name
    [definition, .call SpecialForm.conditional.name [condition, message] .unknown] .unknown

section Exact

variable {context : Context} {options : OptimizeOptions} {depth : Nat} {tree tree' : Tree}
  {store store' : Store} {machine : Machine}

def readBody (site : CallSite) : Except Fault Value := do
  let env ← site.requireEnv
  return .ofOption ((env.procedure? "_p").map fun procedure => .string procedure.body.text)

def bodyReader : Builtin where
  name := "read_body"
  arity := .exactly 0
  run := fun site _ => .ofExcept (readBody site)

theorem body_reader_reliable : bodyReader.Reliable := by
  apply Builtin.reliable_of_reader (fun site _ => readBody site) (fun _ _ => rfl)
    (fun isPure => by cases isPure)
  · intro _ _ _ foldable
    cases foldable
  · intro _ _ _ _ _ done
    cases done

def readingRegistry : Registry := .ofList (bodyReader :: Prelude.builtins)

theorem reading_builtins_reliable : ∀ builtin ∈ bodyReader :: Prelude.builtins, builtin.Reliable :=
  List.forall_mem_cons.mpr ⟨body_reader_reliable, Prelude.builtins_reliable⟩

def reading (body : Tree) : Tree :=
  let definition : Tree := .call SpecialForm.procedure.name
    [.literal (.string "_p") .unknown, body] .unknown
  .call SpecialForm.sequence.name [definition, .call "read_body" [] .unknown] .unknown

/-- What inlining asks of a script beyond that. Parameters have names of their own, since a call
binds the last of two that share a name and hides one that is named like the array of all arguments;
and a call binds a duplicate of a resource, while a replacement reads the resource itself. -/
structure Tree.Inlinable (node : Tree) : Prop where
  noClosure : node.specialForm? ≠ some .closure
  distinct : node.specialForm? = some .procedure →
    (parameterNames node.children.tail.dropLast).Nodup
  unhidden : node.specialForm? = some .procedure →
    argumentsVariable ∉ parameterNames node.children.tail.dropLast
  plain : ∀ value, node.payload = .literal value → value.holdsResource = false

section Execution

variable {lenient : Bool} {bodies : Bodies} {value : Value} {error : EvalError} {after : Machine}

theorem execute_ok (done : tree.eval context machine = .ok value after) :
    tree.execute context machine = .ok value after := by
  unfold Tree.execute
  rw [done]

theorem execute_returned (done : tree.eval context machine = .error (.returned value) after) :
    tree.execute context machine = .ok value after := by
  unfold Tree.execute
  rw [done]

theorem execute_error (other : error.isReturn = false)
    (done : tree.eval context machine = .error error after) :
    tree.execute context machine = .error error after := by
  unfold Tree.execute
  rw [done]
  cases error <;> first | rfl | cases other

theorem execute_of_conforms
    (conforms : Conforms lenient bodies (Value.Like bodies) (tree.eval context machine)
      (tree'.eval context machine)) :
    (∃ value after value' after', tree.execute context machine = .ok value after ∧
      tree'.execute context machine = .ok value' after' ∧
      value.Like bodies value' ∧ after.Like bodies after') ∨
    (∃ depth limit after,
      tree.execute context machine = .error (.stackOverflow depth limit) after) ∨
    (∃ error after error' after', tree.execute context machine = .error error after ∧
      tree'.execute context machine = .error error' after') := by
  generalize done : tree.eval context machine = outcome at conforms
  generalize done' : tree'.eval context machine = outcome' at conforms
  cases conforms with
  | ok related matched =>
      exact Or.inl ⟨_, _, _, _, execute_ok done, execute_ok done', related, matched.like⟩
  | returned related matched =>
      exact Or.inl ⟨_, _, _, _, execute_returned done, execute_returned done', related,
        matched.like⟩
  | same other matched =>
      exact Or.inr (Or.inr ⟨_, _, _, _, execute_error other done, execute_error other done'⟩)
  | failed on ordinary ordinary' =>
      exact Or.inr (Or.inr ⟨_, _, _, _, execute_error (EvalError.ordinary_no_return ordinary) done,
        execute_error (EvalError.ordinary_no_return ordinary') done'⟩)
  | excused on => exact Or.inr (Or.inl ⟨_, _, _, execute_error rfl done⟩)

end Execution

instance : DecidablePred Tree.Inlinable := fun node =>
  decidable_of_iff
    (node.specialForm? ≠ some .closure ∧
      (node.specialForm? = some .procedure →
        (Tree.parameterNames node.children.tail.dropLast).Nodup ∧
          argumentsVariable ∉ Tree.parameterNames node.children.tail.dropLast) ∧
      node.value?.any Value.holdsResource = false)
    ⟨fun holds => ⟨holds.1, fun special => (holds.2.1 special).1,
        fun special => (holds.2.1 special).2, node.plain_iff.mpr holds.2.2⟩,
      fun holds => ⟨holds.noClosure,
        fun special => ⟨holds.distinct special, holds.unhidden special⟩,
        node.plain_iff.mp holds.plain⟩⟩

end Exact

end TreeScript
