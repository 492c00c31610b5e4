import TreeScript.Proofs.Knowledge
import TreeScript.Proofs.Passes
/-!
# What is left of a node

An optimizer that replaces no calls leaves a literal of a node only if the node comes to that
literal in every environment: folding, deciding and flattening are steps that evaluation takes as
well. What is left of a sequence is a literal only if nothing but literals stood in it.
-/

namespace TreeScript

set_option autoImplicit false

/-- An action that comes to one value wherever the flag is clear, and leaves the flag clear. -/
def Run.Delivers {Result : Type} (value : Result) (action : Run Result) : Prop :=
  ∀ machine : Machine, machine.store.interrupted = false →
    ∃ after, action machine = .ok value after ∧ after.store.interrupted = false

namespace Run.Delivers

variable {Item Result : Type} {item : Item} {value : Result}

theorem pure (value : Result) : Run.Delivers value (Pure.pure value) :=
  fun machine clear => ⟨machine, rfl, clear⟩

theorem bind {action : Run Item} {next : Item → Run Result} (first : Run.Delivers item action)
    (others : Run.Delivers value (next item)) : Run.Delivers value (action >>= next) := by
  intro machine clear
  rcases first machine clear with ⟨between, begun, clear'⟩
  rw [bind_of_ok begun]
  exact others between clear'

theorem unless_interrupted {action : Run Result} (delivers : Run.Delivers value action) :
    Run.Delivers value (unlessInterrupted action) := by
  intro machine clear
  rw [unless_interrupted_clear _ clear]
  exact delivers machine clear

end Run.Delivers

namespace Tree

def Yields (registry : Registry) (node : Tree) (value : Value) : Prop :=
  ∀ context run, context.registry = registry → Run.Delivers value (evaluate context run node)

theorem Yields.literal (registry : Registry) (value : Value) (position : Position)
    (optimized : Bool) (facts : Facts) (children : List Tree) :
    Yields registry ⟨.literal value, position, optimized, facts, children⟩ value := by
  intro context run _
  rw [evaluate_literal]
  exact (Run.Delivers.pure value).unless_interrupted

/-- A node that is a literal stands for no other value. -/
def Allows (node : Tree) (value : Value) : Prop :=
  ∀ constant, node.value? = some constant → value = constant

end Tree

/-- A sequence that is left of a node counts for more than its last statement. -/
def Tree.Flat (tree : Tree) : Prop :=
  tree.specialForm?.any SpecialForm.isSequence = true →
    ∃ first next rest, tree.children = first :: next :: rest ∧ isVoidLiteral first = false

/-- What is left of a node. A literal is what the node itself comes to. -/
structure Reduces (registry : Registry) (node out : Tree) : Prop where
  flat : out.Flat
  yields : ∀ value, out.value? = some value → node.Yields registry value

section Lists

variable {registry : Registry} {context : Context} {run : Tree → Run Value} {nodes : List Tree}
  {values : List Value}

theorem evaluate_all_delivers (same : context.registry = registry)
    (yield : List.Forall₂ (Tree.Yields registry) nodes values) :
    Run.Delivers values (evaluateAll context run nodes) := by
  induction yield with
  | nil => exact .pure []
  | cons first _ induction =>
      rw [evaluateAll]
      exact (first context run same).bind (induction.bind (.pure _))

theorem evaluate_sequence_delivers (same : context.registry = registry)
    (yield : List.Forall₂ (Tree.Yields registry) nodes values) (last : Value) :
    Run.Delivers (values.getLast?.getD last) (evaluateSequence context run last nodes) := by
  induction yield generalizing last with
  | nil => exact .pure last
  | @cons node value nodes values first _ induction =>
      rw [evaluateSequence, List.getLast?_cons, Option.getD_some]
      exact (first context run same).bind (induction value)

/-- Arguments that are evaluated are evaluated one by one, and literals come to what they are. -/
theorem evaluate_all_allows (same : context.registry = registry) {nodes' : List Tree}
    (reduce : List.Forall₂ (Reduces registry) nodes nodes') {machine after : Machine}
    (done : evaluateAll context run nodes machine = .ok values after) :
    List.Forall₂ Tree.Allows nodes' values := by
  induction reduce generalizing values machine with
  | nil =>
      cases done
      exact .nil
  | cons first _ induction =>
      rw [evaluateAll] at done
      rcases bind_eq_ok done with ⟨value, between, begun, done⟩
      rcases bind_eq_ok done with ⟨others, final, later, built⟩
      cases built
      refine .cons (fun constant shown => ?_) (induction later)
      have clear := clear_of_evaluate_ok _ _ begun
      rcases first.yields constant shown context run same machine clear with ⟨_, delivered, -⟩
      rw [begun] at delivered
      cases delivered
      rfl

end Lists

namespace Reduces

variable {registry : Registry} {node out : Tree}

theorem settle (reduces : Reduces registry node out) (flag : Bool) :
    Reduces registry node (out.settle flag) :=
  ⟨reduces.flat, reduces.yields⟩

theorem of_call {name : String} {position : Position} {optimized : Bool} {facts : Facts}
    {children : List Tree}
    (other : (SpecialForm.ofName? name).any SpecialForm.isSequence = false) :
    Reduces registry node ⟨.call name, position, optimized, facts, children⟩ :=
  ⟨fun sequence => absurd (other.symm.trans sequence) nofun, nofun⟩

theorem of_literal {value : Value} (yields : node.Yields registry value) (position : Position) :
    Reduces registry node (.literal value position) := by
  refine ⟨nofun, fun other shown => ?_⟩
  cases shown
  exact yields

variable {nodes nodes' : List Tree}

theorem values (reduce : List.Forall₂ (Reduces registry) nodes nodes')
    (constant : nodes'.all Tree.isConstant = true) :
    List.Forall₂ (Tree.Yields registry) nodes (nodes'.filterMap Tree.value?) := by
  induction reduce with
  | nil => exact .nil
  | @cons node node' nodes nodes' first _ induction =>
      rw [List.all_cons, Bool.and_eq_true] at constant
      rcases node' with ⟨payload, position, optimized, facts, children⟩
      cases payload with
      | literal value => exact .cons (first.yields value rfl) (induction constant.2)
      | _ => cases constant.1

theorem flats (reduce : List.Forall₂ (Reduces registry) nodes nodes') :
    ∀ node' ∈ nodes', node'.Flat := by
  induction reduce with
  | nil => exact nofun
  | cons first _ induction =>
      rw [List.forall_mem_cons]
      exact ⟨first.flat, induction⟩

end Reduces

section Sequences

variable {parts : List Tree} {statement : Tree}

theorem constant_of_value {value : Value} (shown : statement.value? = some value) :
    statement.isConstant = true := by
  rw [Tree.isConstant_eq, shown]
  rfl

theorem constant_of_void (isVoid : isVoidLiteral statement = true) :
    statement.isConstant = true := by
  simp only [isVoidLiteral, Option.any_eq_true] at isVoid
  rcases isVoid with ⟨value, shown, -⟩
  exact constant_of_value shown

theorem drop_voids_nil (dropped : dropVoids parts = []) : parts = [] := by
  fun_induction dropVoids parts with
  | case1 => rfl
  | case2 | case4 => cases dropped
  | case3 _ _ _ _ induction => cases induction dropped

/-- What one statement is left of was voids and then that statement. -/
theorem drop_voids_single (dropped : dropVoids parts = [statement]) :
    ∃ voids, parts = voids ++ [statement] ∧ ∀ part ∈ voids, isVoidLiteral part = true := by
  fun_induction dropVoids parts with
  | case1 => cases dropped
  | case2 last =>
      cases dropped
      exact ⟨[], rfl, List.forall_mem_nil _⟩
  | case3 first next rest isVoid induction =>
      rcases induction dropped with ⟨voids, split, all⟩
      refine ⟨first :: voids, by rw [split, List.cons_append], ?_⟩
      rw [List.forall_mem_cons]
      exact ⟨isVoid, all⟩
  | case4 first next rest _ _ =>
      rw [List.cons.injEq] at dropped
      cases drop_voids_nil dropped.2

theorem drop_voids_flat {first next : Tree} {rest : List Tree}
    (dropped : dropVoids parts = first :: next :: rest) : isVoidLiteral first = false := by
  fun_induction dropVoids parts with
  | case1 | case2 => cases dropped
  | case3 _ _ _ _ induction => exact induction dropped
  | case4 head _ _ counts _ =>
      rw [List.cons.injEq] at dropped
      rw [← dropped.1]
      simpa using counts

theorem splices_nil (flat : ∀ part ∈ parts, part.Flat) (spliced : parts.flatMap splice = []) :
    parts = [] := by
  cases parts with
  | nil => rfl
  | cons first rest =>
      rw [List.flatMap_cons, List.append_eq_nil_iff] at spliced
      have empty := spliced.1
      unfold splice at empty
      split at empty
      · rename_i sequence
        rcases flat first List.mem_cons_self sequence with ⟨_, _, _, shape, -⟩
        rw [shape] at empty
        cases empty
      · cases empty

/-- Voids and one statement cannot come out of a sequence, so they are the parts themselves. -/
theorem splices_single {voids : List Tree} (flat : ∀ part ∈ parts, part.Flat)
    (spliced : parts.flatMap splice = voids ++ [statement])
    (all : ∀ part ∈ voids, isVoidLiteral part = true) : parts = voids ++ [statement] := by
  induction parts generalizing voids with
  | nil => cases List.append_ne_nil_of_right_ne_nil voids (List.cons_ne_nil _ _) spliced.symm
  | cons part parts induction =>
      rw [List.forall_mem_cons] at flat
      rw [List.flatMap_cons] at spliced
      cases sequence : part.specialForm?.any SpecialForm.isSequence with
      | true =>
          rcases flat.1 sequence with ⟨first, next, rest, shape, counts⟩
          rw [splice, if_pos sequence, shape] at spliced
          cases voids with
          | nil => cases spliced
          | cons void voids =>
              simp only [List.cons_append, List.cons.injEq] at spliced
              rw [spliced.1, all void List.mem_cons_self] at counts
              cases counts
      | false =>
          rw [splice, if_neg (by simp [sequence]), List.singleton_append] at spliced
          cases voids with
          | nil =>
              rw [List.nil_append, List.cons.injEq] at spliced
              rw [spliced.1, splices_nil flat.2 spliced.2, List.nil_append]
          | cons void voids =>
              rw [List.cons_append, List.cons.injEq] at spliced
              rw [List.forall_mem_cons] at all
              rw [spliced.1, induction flat.2 spliced.2 all.2, List.cons_append]

/-- What is left of a sequence is what its statements come to. -/
theorem collapse_reduces {registry : Registry} {node : Tree} {nodes visited : List Tree}
    (reduce : List.Forall₂ (Reduces registry) nodes visited)
    (yields : ∀ values, List.Forall₂ (Tree.Yields registry) nodes values →
      node.Yields registry (values.getLast?.getD .void)) (position : Position) :
    Reduces registry node (collapse position (dropVoids (visited.flatMap splice))) := by
  have flat : ∀ part ∈ visited, part.Flat := Reduces.flats reduce
  match left : dropVoids (visited.flatMap splice) with
  | [] =>
      have empty : visited = [] := splices_nil flat (drop_voids_nil left)
      subst empty
      cases reduce
      exact .of_literal (yields [] .nil) position
  | [statement] =>
      rcases drop_voids_single left with ⟨voids, split, all⟩
      have shape : visited = voids ++ [statement] := splices_single flat split all
      subst shape
      refine ⟨flat statement (by simp), fun value shown => ?_⟩
      replace shown : statement.value? = some value := shown
      have constant : (voids ++ [statement]).all Tree.isConstant = true := by
        rw [List.all_append, List.all_cons, constant_of_value shown, Bool.and_eq_true,
          List.all_eq_true]
        exact ⟨fun part member => constant_of_void (all part member), rfl⟩
      have comes := yields _ (Reduces.values reduce constant)
      rw [List.filterMap_append, List.filterMap_cons, shown] at comes
      simpa using comes
  | first :: next :: rest => exact ⟨fun _ => ⟨first, next, rest, rfl, drop_voids_flat left⟩, nofun⟩

end Sequences

section Branches

variable {registry : Registry} {nodes nodes' branches : List Tree}

def BranchesYield (registry : Registry) (nodes : List Tree) (value : Value) : Prop :=
  ∀ context run, context.registry = registry →
    Run.Delivers value (evaluateBranches context run nodes)

/-- What is left of conditions and branches: nothing, or one branch, or some open condition. -/
def Resolves (registry : Registry) (nodes : List Tree) : List Tree → Prop
  | [] => BranchesYield registry nodes .void
  | [branch] => branch.Flat ∧
      ∀ value, branch.value? = some value → BranchesYield registry nodes value
  | _ => True

theorem Resolves.mono (resolves : Resolves registry nodes branches)
    (weaker : ∀ value, BranchesYield registry nodes value → BranchesYield registry nodes' value) :
    Resolves registry nodes' branches :=
  match branches, resolves with
  | [], yields => weaker .void yields
  | [_], ⟨flat, yields⟩ => ⟨flat, fun value shown => weaker value (yields value shown)⟩
  | _ :: _ :: _, _ => trivial

variable {condition branch : Tree} {decision value : Value} {rest : List Tree}

theorem branches_yield_taken (decided : condition.Yields registry decision)
    (truthy : decision.isTruthy = true) (yields : branch.Yields registry value) :
    BranchesYield registry (condition :: branch :: rest) value := by
  intro context run same
  rw [evaluateBranches]
  apply (decided context run same).bind
  rw [if_pos truthy]
  exact yields context run same

theorem branches_yield_passed (decided : condition.Yields registry decision)
    (falsy : decision.isTruthy = false) (yields : BranchesYield registry rest value) :
    BranchesYield registry (condition :: branch :: rest) value := by
  intro context run same
  rw [evaluateBranches]
  apply (decided context run same).bind
  rw [if_neg (by simp [falsy])]
  exact yields context run same

theorem resolve_reduces {node : Tree} {name : String}
    (other : (SpecialForm.ofName? name).any SpecialForm.isSequence = false)
    (named : node.payload = .call name) (resolves : Resolves registry nodes branches)
    (yields : ∀ value, BranchesYield registry nodes value → node.Yields registry value) :
    Reduces registry node (resolve node branches) := by
  match branches, resolves with
  | [], empty => exact .of_literal (yields .void empty) node.position
  | [branch], ⟨flat, comes⟩ => exact ⟨flat, fun value shown => yields value (comes value shown)⟩
  | first :: second :: rest, _ =>
      rcases node with ⟨payload, position, optimized, facts, children⟩
      subst named
      exact .of_call other

end Branches

end TreeScript
