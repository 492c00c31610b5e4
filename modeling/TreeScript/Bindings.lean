/-!
# Bindings

Names bound to things, in the order in which the names were first bound. Binding a name again
keeps its place.
-/

namespace TreeScript

set_option autoImplicit false

structure Bindings (Item : Type) where
  entries : List (String × Item) := []
deriving Inhabited

namespace Bindings

variable {Item : Type}

def empty : Bindings Item := {}

def names (bindings : Bindings Item) : List String := bindings.entries.map Prod.fst

def items (bindings : Bindings Item) : List Item := bindings.entries.map Prod.snd

def size (bindings : Bindings Item) : Nat := bindings.entries.length

def isEmpty (bindings : Bindings Item) : Bool := bindings.entries.isEmpty

def find? (bindings : Bindings Item) (name : String) : Option Item :=
  bindings.entries.lookup name

def contains (bindings : Bindings Item) (name : String) : Bool := (bindings.find? name).isSome

def putEntry (name : String) (item : Item) : List (String × Item) → List (String × Item)
  | [] => [(name, item)]
  | entry :: rest =>
      if entry.1 = name then (name, item) :: rest else entry :: putEntry name item rest

def put (bindings : Bindings Item) (name : String) (item : Item) : Bindings Item :=
  ⟨putEntry name item bindings.entries⟩

def erase (bindings : Bindings Item) (name : String) : Bindings Item :=
  ⟨bindings.entries.filter fun entry => entry.1 != name⟩

theorem lookup_putEntry (name other : String) (item : Item) (entries : List (String × Item)) :
    (putEntry name item entries).lookup other =
      if other = name then some item else entries.lookup other := by
  induction entries with
  | nil => by_cases same : other = name <;> simp [putEntry, same]
  | cons entry rest ih =>
      obtain ⟨first, old⟩ := entry
      unfold putEntry
      by_cases found : first = name
      · subst found
        by_cases same : other = first
        · simp [same]
        · simp [List.lookup_cons, beq_eq_false_iff_ne.mpr same, same]
      · by_cases same : other = first
        · subst same
          simp [found]
        · simp [found, List.lookup_cons, beq_eq_false_iff_ne.mpr same, ih]

theorem find?_put (bindings : Bindings Item) (name other : String) (item : Item) :
    (bindings.put name item).find? other =
      if other = name then some item else bindings.find? other :=
  lookup_putEntry name other item bindings.entries

theorem names_putEntry (name : String) (item : Item) (entries : List (String × Item)) :
    (putEntry name item entries).map Prod.fst =
      if name ∈ entries.map Prod.fst then entries.map Prod.fst
      else entries.map Prod.fst ++ [name] := by
  induction entries with
  | nil => simp [putEntry]
  | cons entry rest ih =>
      unfold putEntry
      by_cases first : entry.1 = name
      · simp [first]
      · have differs : ¬ name = entry.1 := fun same => first same.symm
        by_cases present : name ∈ rest.map Prod.fst
        · simp_all
        · simp_all

/-- A new name comes last and an old one keeps its place. -/
theorem names_put (bindings : Bindings Item) (name : String) (item : Item) :
    (bindings.put name item).names =
      if name ∈ bindings.names then bindings.names else bindings.names ++ [name] :=
  names_putEntry name item bindings.entries

end Bindings

end TreeScript
