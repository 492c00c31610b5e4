import TreeScript.Arity
import TreeScript.Docs
/-!
# Special forms

Calls that decide themselves whether and where their arguments are evaluated. Every other call
names a procedure or a builtin function.
-/

namespace TreeScript

set_option autoImplicit false

inductive SpecialForm where
  | autoConcat
  | sequence
  | conditional
  | choice
  | procedure
  | assignment
  | returning
  | closure
  | execution
deriving DecidableEq, Inhabited

namespace SpecialForm

def all : List SpecialForm :=
  [autoConcat, sequence, conditional, choice, procedure, assignment, returning, closure, execution]

def name : SpecialForm → String
  | autoConcat => "__autoconcat__"
  | sequence => "sconcat"
  | conditional => "if"
  | choice => "ifelse"
  | procedure => "proc"
  | assignment => "assign"
  | returning => "return"
  | closure => "closure"
  | execution => "execute"

def ofName? (name : String) : Option SpecialForm := all.find? fun form => form.name == name

def arity : SpecialForm → Arity
  | autoConcat | sequence | closure => .atLeast 0
  | conditional => .between 2 3
  | choice => .atLeast 2
  | procedure | execution => .atLeast 1
  | assignment => .exactly 2
  | returning => .between 0 1

/-- Sequences and conditionals have no effect of their own: they only evaluate arguments. -/
def isTransparent : SpecialForm → Bool
  | autoConcat | sequence | conditional | choice => true
  | _ => false

def isSequence : SpecialForm → Bool
  | autoConcat | sequence => true
  | _ => false

def docs : SpecialForm → String
  | autoConcat =>
      Docs.compose "mixed" "statements..."
        "Produced by the parser for statements written side by side."
  | sequence =>
      Docs.compose "mixed" "statements..."
        "Runs each statement in order and returns the last result."
  | conditional =>
      Docs.compose "mixed" "cond, then, [else]" "Runs then if cond is true, otherwise else."
  | choice =>
      Docs.compose "mixed" "cond1, branch1, [cond2, branch2...], [else]"
        "Runs the branch of the first true condition."
  | procedure =>
      Docs.compose "void" "name, [@params...], body" "Defines a procedure in the current scope."
  | assignment =>
      Docs.compose "mixed" "@var, value" "Binds value to the variable and returns it."
  | returning =>
      Docs.compose "void" "[value]" "Returns from the enclosing procedure or closure."
  | closure =>
      Docs.compose "closure" "[@params...], body"
        "Creates an anonymous procedure that captures the current scope."
  | execution =>
      Docs.compose "mixed" "[args...], closure" "Invokes the closure with the given arguments."

theorem mem_all (form : SpecialForm) : form ∈ all := by
  cases form <;> decide

theorem name_injective {first second : SpecialForm} (same : first.name = second.name) :
    first = second := by
  cases first <;> cases second <;> first | rfl | exact absurd same (by decide)

theorem ofName?_name (form : SpecialForm) : ofName? form.name = some form := by
  cases form <;> decide

theorem ofName?_eq_some_iff (name : String) (form : SpecialForm) :
    ofName? name = some form ↔ form.name = name := by
  constructor
  · intro found
    have matched := List.find?_some found
    simpa using matched
  · rintro rfl
    exact ofName?_name form

theorem isTransparent_of_isSequence {form : SpecialForm} (isSeq : form.isSequence = true) :
    form.isTransparent = true := by
  cases form <;> simp_all [isSequence, isTransparent]

end SpecialForm

end TreeScript
