import TreeScript.Text.Blank
/-!
# Documentation strings

The documentation of a function reads `returns {arguments} description`. A field names one of the
three parts.
-/

namespace TreeScript

set_option autoImplicit false

namespace Docs

def compose (returns arguments description : String) : String :=
  s!"{returns} \x7b{arguments}\x7d {description}"

/-- The parts before, between and after the first pair of braces. -/
def split? (docs : List Char) : Option (List Char × List Char × List Char) :=
  let returns := docs.takeWhile (· != '\x7b')
  match docs.dropWhile (· != '\x7b') with
  | [] => none
  | _ :: inner =>
      let arguments := inner.takeWhile (· != '\x7d')
      match inner.dropWhile (· != '\x7d') with
      | [] => none
      | _ :: description => some (returns, arguments, description)

end Docs

/-- A part of a documentation string. The return type has two names. -/
inductive DocField where
  | type
  | returns
  | arguments
  | description
deriving DecidableEq, Inhabited

namespace DocField

def text : DocField → String
  | type => "type"
  | returns => "return"
  | arguments => "args"
  | description => "description"

/-- Letter case does not matter, for the ASCII letters. -/
def read? (name : String) : Option DocField :=
  let lower := name.map Char.toLower
  [type, returns, arguments, description].find? fun field => field.text == lower

def extract? (field : DocField) (docs : String) : Option String :=
  (Docs.split? docs.toList).map fun (returned, given, described) =>
    match field with
    | type | returns => String.ofList (Text.trimmed returned)
    | arguments => String.ofList (Text.trimmed given)
    | description => String.ofList (Text.trimmed described)

end DocField

end TreeScript
