/-!
# Paths

A file can be named in more than one way. Slashes that repeat or stand last do not matter, nor does
a step `.` that is not the first. Two names with the same steps from the same start are the same.
-/

namespace TreeScript.Text

set_option autoImplicit false

/-- The pieces of a path between its slashes; also those without a character. -/
def pieces : List Char → List (List Char)
  | [] => [[]]
  | c :: rest =>
      match c, pieces rest with
      | '/', found => [] :: found
      | c, piece :: found => (c :: piece) :: found
      | c, [] => [[c]]

/-- What a path walks through. Of the pieces, the empty ones are no steps, and `.` is one only at
the start. -/
structure Route where
  absolute : Bool
  steps : List (List Char)
deriving DecidableEq, Inhabited

def isStep (piece : List Char) : Bool := piece != [] && piece != ['.']

def Route.ofPath (path : List Char) : Route where
  absolute := path.head? == some '/'
  steps :=
    match pieces path with
    | [] => []
    | first :: rest => [first].filter (· != []) ++ rest.filter isStep

def samePath (first second : String) : Bool :=
  Route.ofPath first.toList == Route.ofPath second.toList

@[simp] theorem samePath_self (path : String) : samePath path path = true := by
  simp [samePath]

/-- Naming a file from the root is not the same as naming it from where one stands. -/
theorem samePath_absolute {first second : String} (same : samePath first second = true) :
    first.toList.head? = some '/' ↔ second.toList.head? = some '/' := by
  simp only [samePath, beq_iff_eq, Route.mk.injEq, Route.ofPath] at same
  have starts := same.1
  constructor <;> intro rooted <;> simp_all

end TreeScript.Text
