import TreeScript.Program
/-!
# Answers of the standard functions

What a function of the prelude makes of its arguments when a script calls it: it is found under its
name, its arity accepts the arguments, and the run gives a value or a fault, wherever the call
stands. A function that only looks at its arguments gives one answer, the one of its definition.
-/

namespace TreeScript.Prelude

set_option autoImplicit false

/-- What a standard function makes of arguments that it accepts, wherever it is called from. -/
def Answers (name : String) (arguments : List Value) (result : Except Fault Value) : Prop :=
  ∃ builtin, registry.find? name = some builtin ∧
    builtin.arity.accepts arguments.length = true ∧
    ∀ site, builtin.run site arguments = Action.ofExcept result

def Fails (name : String) (arguments : List Value) (message : String) : Prop :=
  ∃ fault, Answers name arguments (.error fault) ∧ fault.message = message

section

variable {name : String} {arguments : List Value} {result other : Except Fault Value}

theorem Answers.unique (answer : Answers name arguments result)
    (answer' : Answers name arguments other) : result = other := by
  obtain ⟨builtin, found, -, runs⟩ := answer
  obtain ⟨builtin', found', -, runs'⟩ := answer'
  obtain rfl := Option.some.inj (found.symm.trans found')
  have same := (runs ⟨.unknown, none, {}⟩).symm.trans (runs' ⟨.unknown, none, {}⟩)
  have same := congrFun same {}
  cases result <;> cases other <;> cases same <;> rfl

theorem Answers.not_fails {value : Value} (answer : Answers name arguments (.ok value))
    (message : String) : ¬ Fails name arguments message := by
  rintro ⟨fault, failed, -⟩
  exact nomatch answer.unique failed

theorem Answers.fails_iff {fault : Fault} (answer : Answers name arguments (.error fault))
    (message : String) : Fails name arguments message ↔ fault.message = message := by
  constructor
  · rintro ⟨fault', failed, same⟩
    cases answer.unique failed
    exact same
  · exact fun same => ⟨fault, answer, same⟩

theorem answers_of_arguments {arity : Arity} {function : List Value → Except Fault Value}
    (found : ∃ isPure docs, registry.find? name =
      some (ofArguments name arity isPure docs function)) (arguments : List Value)
    (accepted : arity.accepts arguments.length = true) :
    Answers name arguments (function arguments) := by
  obtain ⟨isPure, docs, found⟩ := found
  exact ⟨_, found, accepted, fun _ => rfl⟩

end

end TreeScript.Prelude
