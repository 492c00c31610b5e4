/-!
# Arities

How many arguments a function or a special form takes.
-/

namespace TreeScript

set_option autoImplicit false

inductive Arity where
  | exactly (count : Nat)
  | atLeast (count : Nat)
  | between (low high : Nat)
deriving DecidableEq, Inhabited

namespace Arity

def accepts : Arity → Nat → Bool
  | exactly expected, count => count == expected
  | atLeast low, count => low ≤ count
  | between low high, count => low ≤ count && count ≤ high

def text : Arity → String
  | exactly count => s!"exactly {count}"
  | atLeast count => s!"at least {count}"
  | between low high => s!"between {low} and {high}"

@[simp] theorem accepts_exactly (expected count : Nat) :
    (exactly expected).accepts count = true ↔ count = expected := by
  simp [accepts]

@[simp] theorem accepts_atLeast (low count : Nat) :
    (atLeast low).accepts count = true ↔ low ≤ count := by
  simp [accepts]

@[simp] theorem accepts_between (low high count : Nat) :
    (between low high).accepts count = true ↔ low ≤ count ∧ count ≤ high := by
  simp [accepts]

end Arity

end TreeScript
