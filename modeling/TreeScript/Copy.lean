import TreeScript.Error
/-!
# Copying values

A copy of a value shares everything but the resources in its arrays, which are duplicated one by
one from left to right. Each duplicate takes the next free identity, so the state of a copy is
that number. The first resource that refuses to be duplicated ends the copy.
-/

namespace TreeScript

set_option autoImplicit false

/-- An action that gives out identities. -/
abbrev Copying := EStateM CopyError Nat

namespace Resource

def duplicate? (handle : Resource) (fresh : Nat) : Option Resource :=
  match handle.lineage with
  | .last => none
  | .next typeName after => some ⟨fresh, typeName, after⟩
  | .endless => some { handle with identity := fresh }

def duplicate (handle : Resource) : Copying Resource := fun fresh =>
  match handle.duplicate? fresh with
  | some copied => .ok copied (fresh + 1)
  | none => .error ⟨handle.typeName⟩ fresh

end Resource

namespace Value

mutual

def holdsResource : Value → Bool
  | resource _ => true
  | array items => anyHoldsResource items
  | _ => false

def anyHoldsResource : List Value → Bool
  | [] => false
  | item :: rest => holdsResource item || anyHoldsResource rest

end

mutual

/-- An array without resources is shared as it is. -/
def copy : Value → Copying Value
  | array items =>
      if anyHoldsResource items then do return array (← copyItems items)
      else return array items
  | resource handle => return resource (← handle.duplicate)
  | value => return value

def copyItems : List Value → Copying (List Value)
  | [] => return []
  | item :: rest => do
      let copied ← copy item
      return copied :: (← copyItems rest)

end

theorem anyHoldsResource_eq_any (items : List Value) :
    anyHoldsResource items = items.any holdsResource := by
  induction items with
  | nil => simp [anyHoldsResource]
  | cons item rest ih => simp [anyHoldsResource, ih]

end Value

end TreeScript
