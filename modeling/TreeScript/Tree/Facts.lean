import TreeScript.Tree.Basic
/-!
# Names in a subtree

The functions and the variables that a subtree mentions, in the order of first mention. A node
remembers an answer once it has been asked for it. A copy of a tree remembers nothing.
-/

namespace TreeScript

set_option autoImplicit false

inductive FactKind where
  | functionNames
  | variableNames
deriving DecidableEq, Inhabited

namespace Facts

def known? (facts : Facts) : FactKind → Option (List String)
  | .functionNames => facts.functionNames
  | .variableNames => facts.variableNames

def store (facts : Facts) (names : List String) : FactKind → Facts
  | .functionNames => { facts with functionNames := some names }
  | .variableNames => { facts with variableNames := some names }

def isCached (facts : Facts) (kind : FactKind) : Bool := (facts.known? kind).isSome

end Facts

namespace Payload

def nameOf? : FactKind → Payload → Option String
  | .functionNames, payload => payload.functionName?
  | .variableNames, payload => payload.variableName?

end Payload

namespace Tree

mutual

/-- The payloads of a subtree: a node before its children. -/
def payloads : Tree → List Payload
  | ⟨payload, _, _, _, children⟩ => payload :: childPayloads children

def childPayloads : List Tree → List Payload
  | [] => []
  | child :: rest => payloads child ++ childPayloads rest

end

def names (kind : FactKind) (tree : Tree) : List String :=
  (tree.payloads.filterMap (Payload.nameOf? kind)).eraseDups

def functionNames (tree : Tree) : List String := tree.names .functionNames

def variableNames (tree : Tree) : List String := tree.names .variableNames

/-- Answers from memory if the node remembers, and makes it remember otherwise. -/
def ask (kind : FactKind) (tree : Tree) : List String × Tree :=
  match tree.facts.known? kind with
  | some known => (known, tree)
  | none =>
      let found := tree.names kind
      (found, { tree with facts := tree.facts.store found kind })

def remember (kind : FactKind) (tree : Tree) : Tree := (tree.ask kind).2

def isCached (kind : FactKind) (tree : Tree) : Bool := tree.facts.isCached kind

def forget (tree : Tree) : Tree := { tree with facts := {} }

mutual

/-- The same tree with nothing remembered anywhere. -/
def copy : Tree → Tree
  | ⟨payload, position, optimized, _, children⟩ =>
      ⟨payload, position, optimized, {}, copies children⟩

def copies : List Tree → List Tree
  | [] => []
  | child :: rest => copy child :: copies rest

end

mutual

/-- The same tree with nothing remembered and nothing settled anywhere. -/
def freshCopy : Tree → Tree
  | ⟨payload, position, _, _, children⟩ => ⟨payload, position, false, {}, freshCopies children⟩

def freshCopies : List Tree → List Tree
  | [] => []
  | child :: rest => freshCopy child :: freshCopies rest

end

theorem childPayloads_eq_flatMap (children : List Tree) :
    childPayloads children = children.flatMap payloads := by
  induction children with
  | nil => simp [childPayloads]
  | cons child rest ih => simp [childPayloads, ih]

theorem copies_eq_map (children : List Tree) : copies children = children.map copy := by
  induction children with
  | nil => simp [copies]
  | cons child rest ih => simp [copies, ih]

theorem freshCopies_eq_map (children : List Tree) :
    freshCopies children = children.map freshCopy := by
  induction children with
  | nil => simp [freshCopies]
  | cons child rest ih => simp [freshCopies, ih]

theorem ask_of_not_cached {kind : FactKind} {tree : Tree} (unknown : tree.isCached kind = false) :
    (tree.ask kind).1 = tree.names kind := by
  unfold ask
  cases recalled : tree.facts.known? kind with
  | none => rfl
  | some known => simp [isCached, Facts.isCached, recalled] at unknown

end Tree

end TreeScript
