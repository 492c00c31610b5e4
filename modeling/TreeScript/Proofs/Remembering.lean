import Mathlib.Data.List.Basic
import Mathlib.Logic.Relation
import TreeScript.Proofs.Quiet
/-!
# What nodes remember

A host reads and edits the trees that it holds, at any node and in any order. It copies nodes, takes
them out of one tree and puts them into another. A node that has been asked for the names in its
subtree remembers the answer, and an edit anywhere below has to make it forget.

Main statement: whatever the host does, what a node remembers is what would be found in its subtree
now. An edit that is refused may cost nodes their memory, but it changes nothing else.

A tree that has been moved may stay available to the host here. That allows more sessions, not
fewer.
-/

namespace TreeScript

set_option autoImplicit false

/-- The names that a list mentions, each once. Those in a front part of the list come before all
others. -/
structure FirstMentions (names mentions : List String) : Prop where
  nodup : names.Nodup
  complete : ∀ name, name ∈ names ↔ name ∈ mentions
  ordered : ∀ front, front <+: mentions →
    ∃ first, first <+: names ∧ ∀ name, name ∈ first ↔ name ∈ front

theorem erase_dups_nodup : (mentions : List String) → mentions.eraseDups.Nodup
  | [] => List.nodup_nil
  | name :: rest => by
      rw [List.eraseDups_cons, List.nodup_cons]
      refine ⟨fun member => ?_, erase_dups_nodup (rest.filter fun other => !other == name)⟩
      rw [List.mem_eraseDups, List.mem_filter] at member
      simp at member
termination_by mentions => mentions.length
decreasing_by exact Nat.lt_succ_of_le (List.length_filter_le _ _)

theorem erase_dups_first_mentions (mentions : List String) :
    FirstMentions mentions.eraseDups mentions where
  nodup := erase_dups_nodup mentions
  complete _ := List.mem_eraseDups
  ordered front isFront := by
    obtain ⟨rest, rfl⟩ := isFront
    rw [List.eraseDups_append]
    exact ⟨front.eraseDups, List.prefix_append _ _, fun _ => List.mem_eraseDups⟩

namespace Tree

theorem payloads_copy (tree : Tree) : tree.copy.payloads = tree.payloads := by
  induction tree using Tree.induction with
  | node payload position optimized facts children induction =>
      rw [copy, copies_eq_map, payloads, payloads, childPayloads_eq_flatMap,
        childPayloads_eq_flatMap, List.flatMap_map]
      exact congrArg _ (List.flatMap_congr induction)

theorem names_eq_of_copy_eq {first second : Tree} (same : first.copy = second.copy)
    (kind : FactKind) : first.names kind = second.names kind := by
  rw [names, names, ← payloads_copy first, same, payloads_copy]

theorem copy_remember (kind : FactKind) (tree : Tree) : (tree.remember kind).copy = tree.copy := by
  rcases tree with ⟨payload, position, optimized, facts, children⟩
  unfold remember ask
  split <;> rfl

theorem copies_set {children : List Tree} {index : Nat} {child child' : Tree}
    (here : children[index]? = some child) (same : child'.copy = child.copy) :
    copies (children.set index child') = copies children := by
  obtain ⟨within, rfl⟩ := List.getElem?_eq_some_iff.mp here
  have within' : index < (children.map copy).length := by simpa using within
  rw [copies_eq_map, copies_eq_map, List.map_set, same]
  simpa using List.set_getElem_self within'

theorem child_eq_ok {tree child : Tree} {index : Nat} (here : tree.child? index = .ok child) :
    tree.children[index]? = some child := by
  unfold child? at here
  split at here
  · rename_i found
    cases here
    exact found
  · cases here

theorem ask_at_cons {kind : FactKind} {index : Nat} {path : List Nat} {tree tree' : Tree}
    {found : List String} (asked : tree.askAt kind (index :: path) = .ok (found, tree')) :
    ∃ child child', tree.children[index]? = some child ∧
      child.askAt kind path = .ok (found, child') ∧
      tree' = { tree with children := tree.children.set index child' } := by
  rw [askAt] at asked
  obtain ⟨child, here, asked⟩ := except_bind_ok asked
  obtain ⟨⟨names, child'⟩, below, built⟩ := except_bind_ok asked
  cases built
  exact ⟨child, child', child_eq_ok here, below, rfl⟩

/-- What the node remembers is what is in its subtree now. -/
def Recalls (node : Tree) : Prop :=
  ∀ kind known, node.facts.known? kind = some known → known = node.names kind

theorem recalls_of_no_facts {node : Tree} (unread : node.facts = {}) : node.Recalls := by
  intro kind known recalled
  rw [unread] at recalled
  cases kind <;> cases recalled

/-- A node still remembers rightly when its children change in what they remember. -/
theorem Recalls.of_children {node : Tree} (recalls : node.Recalls) {children : List Tree}
    (same : copies children = copies node.children) :
    Recalls { node with children := children } := by
  rcases node with ⟨payload, position, optimized, facts, others⟩
  intro kind known recalled
  rw [recalls kind known recalled]
  apply names_eq_of_copy_eq
  simp only [copy, same]

abbrev RecallsAll (tree : Tree) : Prop := tree.Everywhere Recalls

namespace RecallsAll

variable {tree : Tree}

theorem of_no_facts (unread : tree.Everywhere fun node => node.facts = {}) : tree.RecallsAll :=
  unread.mono fun _ => recalls_of_no_facts

theorem child (recalls : tree.RecallsAll) {index : Nat} {child : Tree}
    (here : tree.children[index]? = some child) : child.RecallsAll :=
  recalls.inside child (List.mem_of_getElem? here)

theorem set_children {children : List Tree} (all : ∀ child ∈ children, child.RecallsAll) :
    (tree.setChildren children).RecallsAll := .node (recalls_of_no_facts rfl) all

theorem set_payload (recalls : tree.RecallsAll) (payload : Payload) :
    (tree.setPayload payload).RecallsAll := .node (recalls_of_no_facts rfl) recalls.inside

/-- Whether a node is settled does not matter for the names in it. -/
theorem settle (recalls : tree.RecallsAll) (flag : Bool) : (tree.settle flag).RecallsAll := by
  rcases tree with ⟨payload, position, optimized, facts, children⟩
  exact .node recalls.here recalls.inside

theorem remember (recalls : tree.RecallsAll) (kind : FactKind) :
    (tree.remember kind).RecallsAll := by
  rcases tree with ⟨payload, position, optimized, facts, children⟩
  unfold Tree.remember ask
  split
  · exact recalls
  · refine .node (fun other known recalled => ?_) recalls.inside
    have before := recalls.here other known
    cases kind <;> cases other <;> first
      | exact (Option.some.inj recalled).symm
      | exact before recalled

theorem copy (tree : Tree) : tree.copy.RecallsAll := by
  induction tree using Tree.induction with
  | node payload position optimized facts children induction =>
      rw [Tree.copy, copies_eq_map]
      exact .node (recalls_of_no_facts rfl) (List.forall_mem_map.mpr induction)

theorem fresh_copy (tree : Tree) : tree.freshCopy.RecallsAll := by
  induction tree using Tree.induction with
  | node payload position optimized facts children induction =>
      rw [Tree.freshCopy, freshCopies_eq_map]
      exact .node (recalls_of_no_facts rfl) (List.forall_mem_map.mpr induction)

/-- A question asked somewhere in a tree is remembered there. The nodes above keep what they
remember, and rightly so, because the names below them stay. -/
theorem ask_at {kind : FactKind} {path : List Nat} {found : List String} {tree' : Tree}
    (recalls : tree.RecallsAll) (asked : tree.askAt kind path = .ok (found, tree')) :
    tree'.RecallsAll ∧ tree'.copy = tree.copy := by
  induction path generalizing tree tree' with
  | nil =>
      obtain rfl : tree.remember kind = tree' := congrArg Prod.snd (Except.ok.inj asked)
      exact ⟨recalls.remember kind, copy_remember kind tree⟩
  | cons index path induction =>
      obtain ⟨child, child', here, below, rfl⟩ := ask_at_cons asked
      obtain ⟨kept, same⟩ := induction (recalls.child here) below
      have unchanged := copies_set here same
      rcases tree with ⟨payload, position, optimized, facts, children⟩
      refine ⟨.node (recalls.here.of_children unchanged) fun other member => ?_, ?_⟩
      · obtain old | rfl := List.mem_or_eq_of_mem_set member
        · exact recalls.inside other old
        · exact kept
      · simp only [Tree.copy, unchanged]

end RecallsAll

end Tree

/-- What is done to one node. Its child list can be changed at will; the changed list comes with
the trees that leave it. -/
inductive Edit where
  | setPayload (payload : Payload)
  | settle (flag : Bool)
  | replace (tree : Tree)
  | addChild (child : Tree)
  | insertChild (index : Nat) (child : Tree)
  | removeChild (index : Nat)
  | removeAllChildren
  | setChildren (children : List Tree)
  | takeChildren
  | changeChildren (change : List Tree → List Tree × List Tree)
  | ask (kind : FactKind)

namespace Edit

def apply : Edit → Tree → Except TreeError (List Tree) × Tree
  | setPayload payload, node => (.ok [], node.setPayload payload)
  | settle flag, node => (.ok [], node.settle flag)
  | replace tree, node => (.ok [node], tree)
  | addChild child, node => (.ok [], node.addChild child)
  | insertChild index child, node =>
      match node.insertChild index child with
      | .ok after => (.ok [], after)
      | .error refusal => (.error refusal, node)
  | removeChild index, node =>
      match node.removeChild index with
      | .ok (child, after) => (.ok [child], after)
      | .error refusal => (.error refusal, node)
  | removeAllChildren, node => (.ok [], node.removeAllChildren)
  | setChildren children, node => (.ok [], node.setChildren children)
  | takeChildren, node => (.ok node.takeChildren.1, node.takeChildren.2)
  | changeChildren change, node =>
      (.ok (change node.children).2, node.modifyChildren fun children => (change children).1)
  | ask kind, node => (.ok [], node.remember kind)

/-- The trees that the edit puts into a node are among those at hand. -/
def DrawsOn (forest : List Tree) : Edit → Prop
  | replace tree | addChild tree | insertChild _ tree => tree ∈ forest
  | setChildren children => ∀ child ∈ children, child ∈ forest
  | changeChildren change => ∀ children tree,
      tree ∈ (change children).1 ∨ tree ∈ (change children).2 → tree ∈ children ∨ tree ∈ forest
  | _ => True

end Edit

abbrev EditOutcome := Except TreeError (List Tree) × Tree

structure EditOutcome.Recalls (outcome : EditOutcome) : Prop where
  node : outcome.2.RecallsAll
  leaving : ∀ trees, outcome.1 = .ok trees → ∀ tree ∈ trees, tree.RecallsAll

namespace EditOutcome

theorem recalls_ok {trees : List Tree} {node : Tree} (recalls : node.RecallsAll)
    (leaving : ∀ tree ∈ trees, tree.RecallsAll) : EditOutcome.Recalls (.ok trees, node) := by
  refine ⟨recalls, fun others same => ?_⟩
  cases same
  exact leaving

theorem recalls_error {refusal : TreeError} {node : Tree} (recalls : node.RecallsAll) :
    EditOutcome.Recalls (.error refusal, node) := by
  refine ⟨recalls, fun others same => ?_⟩
  cases same

end EditOutcome

section Edits

variable {edit : Edit} {action : Tree → EditOutcome} {node tree : Tree}

theorem Edit.keeps_memory {forest : List Tree} (draws : edit.DrawsOn forest)
    (all : ∀ tree ∈ forest, tree.RecallsAll) (recalls : node.RecallsAll) :
    EditOutcome.Recalls (edit.apply node) := by
  have none : ∀ tree ∈ ([] : List Tree), tree.RecallsAll := List.forall_mem_nil _
  have below := recalls.inside
  cases edit with
  | setPayload payload => exact EditOutcome.recalls_ok (recalls.set_payload payload) none
  | settle flag => exact EditOutcome.recalls_ok (recalls.settle flag) none
  | replace tree => exact EditOutcome.recalls_ok (all tree draws) (by simpa using recalls)
  | addChild child =>
      refine EditOutcome.recalls_ok (.set_children fun other member => ?_) none
      obtain old | new := List.mem_append.mp member
      · exact below other old
      · rw [List.mem_singleton.mp new]
        exact all child draws
  | insertChild index child =>
      rw [Edit.apply, Tree.insertChild]
      by_cases fits : index ≤ node.children.length
      · rw [if_pos fits]
        refine EditOutcome.recalls_ok (.set_children fun other member => ?_) none
        rw [List.mem_append, List.mem_cons] at member
        obtain front | rfl | rest := member
        · exact below other (List.mem_of_mem_take front)
        · exact all other draws
        · exact below other (List.mem_of_mem_drop rest)
      · rw [if_neg fits]
        exact EditOutcome.recalls_error recalls
  | removeChild index =>
      rw [Edit.apply, Tree.removeChild]
      cases found : node.children[index]? with
      | none => exact EditOutcome.recalls_error recalls
      | some child =>
          refine EditOutcome.recalls_ok (.set_children fun other member => ?_) ?_
          · exact below other (List.mem_of_mem_eraseIdx member)
          · simpa using recalls.child found
  | removeAllChildren => exact EditOutcome.recalls_ok (.set_children none) none
  | setChildren children => exact EditOutcome.recalls_ok (.set_children fun child member =>
      all child (draws child member)) none
  | takeChildren => exact EditOutcome.recalls_ok (.set_children none) below
  | changeChildren change =>
      have given : ∀ other, other ∈ (change node.children).1 ∨ other ∈ (change node.children).2 →
          other.RecallsAll := by
        intro other member
        obtain old | new := draws node.children other member
        · exact below other old
        · exact all other new
      exact EditOutcome.recalls_ok (.set_children fun other member => given other (.inl member))
        fun other member => given other (.inr member)
  | ask kind => exact EditOutcome.recalls_ok (recalls.remember kind) none

/-- An edit is refused before it touches the node. -/
theorem Edit.refused {refusal : TreeError} {after : Tree}
    (refuses : edit.apply node = (.error refusal, after)) : after = node := by
  cases edit with
  | insertChild index child =>
      rw [Edit.apply] at refuses
      split at refuses <;> cases refuses
      rfl
  | removeChild index =>
      rw [Edit.apply] at refuses
      split at refuses <;> cases refuses
      rfl
  | _ => cases refuses

theorem Tree.edit_at_recalls
    (keeps : ∀ node : Tree, node.RecallsAll → EditOutcome.Recalls (action node))
    (path : List Nat) (recalls : tree.RecallsAll) :
    EditOutcome.Recalls (tree.editAt action path) := by
  induction path generalizing tree with
  | nil => exact keeps tree recalls
  | cons index path induction =>
      rw [editAt]
      cases found : tree.children[index]? with
      | none => exact EditOutcome.recalls_error (.node (recalls_of_no_facts rfl) recalls.inside)
      | some child =>
          obtain ⟨kept, leaving⟩ := induction (recalls.child found)
          refine ⟨.set_children fun other member => ?_, leaving⟩
          obtain old | rfl := List.mem_or_eq_of_mem_set member
          · exact recalls.inside other old
          · exact kept

/-- A refusal, be it for the edit or for the way there, costs memory only. -/
theorem Tree.edit_at_refused {path : List Nat} {refusal : TreeError} {after : Tree}
    (safe : ∀ node refusal after, action node = (.error refusal, after) → after = node)
    (refuses : tree.editAt action path = (.error refusal, after)) : after.copy = tree.copy := by
  induction path generalizing tree after with
  | nil => rw [safe tree refusal after refuses]
  | cons index path induction =>
      rcases tree with ⟨payload, position, optimized, facts, children⟩
      rw [editAt] at refuses
      cases found : children[index]? with
      | none =>
          simp only [found] at refuses
          cases refuses
          rfl
      | some child =>
          cases outcome : child.editAt action path with
          | mk result child' =>
              simp only [found, outcome] at refuses
              cases refuses
              have unchanged := copies_set found (induction outcome)
              simp only [copy, setChildren, forget, unchanged]

end Edits

/-- One step of a host that holds some trees, and whether it was refused. -/
inductive HostStep (forest : List Tree) : Option TreeError → List Tree → Prop where
  | ask {slot : Nat} {tree tree' : Tree} {path : List Nat} {kind : FactKind}
      {names : List String} : forest[slot]? = some tree →
      tree.askAt kind path = .ok (names, tree') → HostStep forest none (forest.set slot tree')
  | edit {slot : Nat} {tree tree' : Tree} {path : List Nat} {edit : Edit} {leaving : List Tree} :
      forest[slot]? = some tree → edit.DrawsOn forest →
      tree.editAt edit.apply path = (.ok leaving, tree') →
      HostStep forest none (forest.set slot tree' ++ leaving)
  | refused {slot : Nat} {tree tree' : Tree} {path : List Nat} {edit : Edit}
      {refusal : TreeError} : forest[slot]? = some tree → edit.DrawsOn forest →
      tree.editAt edit.apply path = (.error refusal, tree') →
      HostStep forest (some refusal) (forest.set slot tree')
  | copy {slot : Nat} {tree node : Tree} {path : List Nat} : forest[slot]? = some tree →
      tree.descend path = .ok node → HostStep forest none (forest ++ [node.copy])
  | freshCopy {slot : Nat} {tree node : Tree} {path : List Nat} : forest[slot]? = some tree →
      tree.descend path = .ok node → HostStep forest none (forest ++ [node.freshCopy])
  | make {payload : Payload} {children : List Tree} {position : Position} :
      (∀ child ∈ children, child ∈ forest) →
      HostStep forest none (forest ++ [.node payload children position])

abbrev HostSession : List Tree → List Tree → Prop :=
  Relation.ReflTransGen fun before after => ∃ refusal, HostStep before refusal after

section Sessions

variable {forest forest' : List Tree} {refusal : Option TreeError}

theorem forall_mem_set {holds : Tree → Prop} (all : ∀ tree ∈ forest, holds tree) {slot : Nat}
    {tree' : Tree} (new : holds tree') : ∀ tree ∈ forest.set slot tree', holds tree := by
  intro tree member
  obtain old | rfl := List.mem_or_eq_of_mem_set member
  · exact all tree old
  · exact new

theorem forall_mem_concat {holds : Tree → Prop} (all : ∀ tree ∈ forest, holds tree) {tree' : Tree}
    (new : holds tree') : ∀ tree ∈ forest ++ [tree'], holds tree := by
  simpa [or_imp, forall_and] using ⟨all, new⟩

theorem HostStep.keeps_memory (step : HostStep forest refusal forest')
    (all : ∀ tree ∈ forest, tree.RecallsAll) : ∀ tree ∈ forest', tree.RecallsAll := by
  cases step with
  | ask here asked =>
      exact forall_mem_set all ((all _ (List.mem_of_getElem? here)).ask_at asked).1
  | @edit _ tree _ path _ _ here draws edited =>
      have outcome := Tree.edit_at_recalls (fun _ => Edit.keeps_memory draws all) path
        (all tree (List.mem_of_getElem? here))
      rw [edited] at outcome
      exact List.forall_mem_append.mpr
        ⟨forall_mem_set all outcome.node, outcome.leaving _ rfl⟩
  | @refused _ tree _ path _ _ here draws edited =>
      have outcome := Tree.edit_at_recalls (fun _ => Edit.keeps_memory draws all) path
        (all tree (List.mem_of_getElem? here))
      rw [edited] at outcome
      exact forall_mem_set all outcome.node
  | copy => exact forall_mem_concat all (.copy _)
  | freshCopy => exact forall_mem_concat all (.fresh_copy _)
  | make given =>
      refine forall_mem_concat all (.node (Tree.recalls_of_no_facts rfl) fun child member => ?_)
      exact all child (given child member)

theorem HostSession.keeps_memory (session : HostSession forest forest')
    (all : ∀ tree ∈ forest, tree.RecallsAll) : ∀ tree ∈ forest', tree.RecallsAll := by
  induction session with
  | refl => exact all
  | tail _ last induction =>
      obtain ⟨refusal, step⟩ := last
      exact step.keeps_memory induction

/-- A step that is refused changes no payload, no position, no flag and no list of children. -/
theorem HostStep.refusal_changes_nothing {refusal : TreeError}
    (step : HostStep forest (some refusal) forest') :
    forest'.map Tree.copy = forest.map Tree.copy := by
  cases step with
  | refused here draws edited =>
      have same := Tree.edit_at_refused (fun _ _ _ => Edit.refused) edited
      rw [← Tree.copies_eq_map, ← Tree.copies_eq_map]
      exact Tree.copies_set here same

/-- Memory is never stale. In any session that starts with trees that remember nothing, every name
list that a node remembers is the list that would be worked out for it now, which is that of the
names in its subtree in the order of first mention. An edit that is refused changes no tree. -/
theorem memory_never_stale
    (unread : ∀ tree ∈ forest, tree.Everywhere fun node => node.facts = {})
    (session : HostSession forest forest') :
    (∀ tree ∈ forest', tree.Everywhere fun node => ∀ kind known,
      node.facts.known? kind = some known → known = node.names kind ∧
        FirstMentions known (node.payloads.filterMap (Payload.nameOf? kind))) ∧
    ∀ refusal forest'', HostStep forest' (some refusal) forest'' →
      forest''.map Tree.copy = forest'.map Tree.copy := by
  refine ⟨fun tree member => ?_, fun refusal forest'' step => step.refusal_changes_nothing⟩
  have recalls := session.keeps_memory (fun tree member => .of_no_facts (unread tree member))
    tree member
  refine recalls.mono fun node here kind known recalled => ?_
  obtain rfl := here kind known recalled
  exact ⟨rfl, erase_dups_first_mentions _⟩

end Sessions

def sumMessage : Tree :=
  .call "msg" [.call "add" [.node (.variable "@a") [] .unknown] .unknown] .unknown

theorem memory_never_stale_of_renamed :
    ∃ message : Tree, HostSession [sumMessage] [message] ∧
      message.facts.known? .functionNames = some ["msg", "subtract"] ∧
      (∀ kind known, message.facts.known? kind = some known → known = message.names kind) ∧
      ∃ forest, HostStep [message] (some ⟨7, 1⟩) forest ∧
        forest.map Tree.copy = [message.copy] := by
  let rename : Edit := .setPayload (.call "subtract")
  let asked : Tree := sumMessage.remember .functionNames
  let renamed : Tree := (asked.editAt rename.apply [0]).2
  let message : Tree := renamed.remember .functionNames
  have asking : HostStep [sumMessage] none [asked] :=
    @HostStep.ask _ 0 _ _ [] .functionNames _ rfl rfl
  have changing : HostStep [asked] none [renamed] :=
    @HostStep.edit _ 0 _ _ [0] rename [] rfl trivial rfl
  have askingAgain : HostStep [renamed] none [message] :=
    @HostStep.ask _ 0 _ _ [] .functionNames _ rfl rfl
  have refusing : HostStep [message] (some ⟨7, 1⟩) [message] :=
    @HostStep.refused _ 0 _ _ [] (.removeChild 7) _ rfl trivial rfl
  have session : HostSession [sumMessage] [message] :=
    ((Relation.ReflTransGen.single ⟨none, asking⟩).tail ⟨none, changing⟩).tail ⟨none, askingAgain⟩
  have unread : ∀ tree ∈ [sumMessage], tree.Everywhere fun node => node.facts = {} := by decide
  obtain ⟨right, unchanged⟩ := memory_never_stale unread session
  have here := (right message (List.mem_singleton_self message)).here
  exact ⟨message, session, rfl, fun kind known recalled => (here kind known recalled).1,
    [message], refusing, unchanged _ _ refusing⟩

end TreeScript
