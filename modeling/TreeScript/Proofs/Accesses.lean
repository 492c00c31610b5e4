import TreeScript.Proofs.Registries
import TreeScript.Proofs.Standard
/-!
# Accesses without a check of their own

Several functions of the prelude take their arguments by index and do not look at how many there
are; special forms take their children that way; `array_get` adds an index to a length and takes an
element; and a part of a documentation string is cut out at byte positions. Each of these relies on
a check that stands elsewhere.

Here these accesses are written down as they are made, with nothing but an arbitrary `Crash` to
happen where one goes wrong: an index out of range, a sum out of range, a slice that starts or ends
inside of a character or behind the end. Main statement: whatever the crash does, optimizing and
evaluating are what they were. So no script gets to it.

The other arithmetic on integers goes through operations that report a result out of range, and
lists are otherwise taken apart by their shape. Neither can go wrong in this way.
-/

namespace TreeScript

set_option autoImplicit false

/-- Work that may make an access that goes wrong. Then there is no result at all, not even an
error. -/
abbrev Unchecked := ExceptT Fault Option

namespace Unchecked

variable {Item : Type}

def access (found : Option Item) : Unchecked Item := found.map Except.ok

def item (items : List Item) (index : Nat) : Unchecked Item := access items[index]?

def ofExcept (result : Except Fault Item) : Unchecked Item := some result

section Steps

variable {Result : Type} (found : Item) (next : Item → Unchecked Result)

@[simp] theorem access_some : (access (some found) >>= next) = next found := rfl

@[simp] theorem of_except_ok : (ofExcept (.ok found) >>= next) = next found := rfl

@[simp] theorem of_except_bind (result : Except Fault Item) (next : Item → Except Fault Result) :
    ofExcept (result >>= next) = (ofExcept result >>= fun item => ofExcept (next item)) := by
  cases result <;> rfl

@[simp] theorem of_except_pure : (ofExcept (pure found)) = pure found := rfl

end Steps

@[simp] theorem item_zero {Result : Type} (first : Item) (rest : List Item)
    (next : Item → Unchecked Result) : (item (first :: rest) 0 >>= next) = next first := rfl

@[simp] theorem item_one {Result : Type} (first second : Item) (rest : List Item)
    (next : Item → Unchecked Result) :
    (item (first :: second :: rest) 1 >>= next) = next second := rfl

/-! ### Slices of a text by bytes -/

def bytes (text : List Char) : Nat :=
  text.foldr (fun character count => character.utf8Size + count) 0

/-- The byte at which a character is found first. -/
def findByte (wanted : Char) : List Char → Option Nat
  | [] => none
  | character :: rest =>
      if character = wanted then some 0 else (findByte wanted rest).map (character.utf8Size + ·)

/-- The text from a byte on. There is none from inside of a character or from behind the end. -/
def sliceFrom : Nat → List Char → Option (List Char)
  | 0, text => some text
  | _ + 1, [] => none
  | count + 1, character :: rest =>
      if character.utf8Size ≤ count + 1 then sliceFrom (count + 1 - character.utf8Size) rest
      else none

def sliceTo : Nat → List Char → Option (List Char)
  | 0, _ => some []
  | _ + 1, [] => none
  | count + 1, character :: rest =>
      if character.utf8Size ≤ count + 1 then
        (sliceTo (count + 1 - character.utf8Size) rest).map (character :: ·)
      else none

def slice (start stop : Nat) (text : List Char) : Option (List Char) :=
  if start ≤ stop then (sliceFrom start text).bind (sliceTo (stop - start)) else none

@[simp] theorem bytes_nil : bytes [] = 0 := rfl

@[simp] theorem bytes_cons (character : Char) (rest : List Char) :
    bytes (character :: rest) = character.utf8Size + bytes rest := rfl

theorem bytes_append (front rest : List Char) :
    bytes (front ++ rest) = bytes front + bytes rest := by
  induction front with
  | nil => simp
  | cons character front induction => simp [induction, Nat.add_assoc]

theorem slice_from_append (front rest : List Char) :
    sliceFrom (bytes front) (front ++ rest) = some rest := by
  induction front with
  | nil => rw [bytes_nil, List.nil_append, sliceFrom]
  | cons character front induction =>
      have positive := character.utf8Size_pos
      obtain ⟨count, counted⟩ : ∃ count, bytes (character :: front) = count + 1 :=
        Nat.exists_eq_succ_of_ne_zero (by rw [bytes_cons]; omega)
      have split := bytes_cons character front
      rw [counted, List.cons_append, sliceFrom, if_pos (by omega)]
      rw [show count + 1 - character.utf8Size = bytes front by omega]
      exact induction

theorem slice_to_append (front rest : List Char) :
    sliceTo (bytes front) (front ++ rest) = some front := by
  induction front with
  | nil => rw [bytes_nil, sliceTo]
  | cons character front induction =>
      have positive := character.utf8Size_pos
      obtain ⟨count, counted⟩ : ∃ count, bytes (character :: front) = count + 1 :=
        Nat.exists_eq_succ_of_ne_zero (by rw [bytes_cons]; omega)
      have split := bytes_cons character front
      rw [counted, List.cons_append, sliceTo, if_pos (by omega)]
      rw [show count + 1 - character.utf8Size = bytes front by omega, induction]
      rfl

theorem find_byte_eq (wanted : Char) (text : List Char) :
    findByte wanted text =
      if text.dropWhile (· != wanted) = [] then none
      else some (bytes (text.takeWhile (· != wanted))) := by
  induction text with
  | nil => rfl
  | cons character rest induction =>
      rw [findByte]
      by_cases found : character = wanted
      · rw [if_pos found, List.dropWhile_cons, List.takeWhile_cons]
        simp [found]
      · rw [if_neg found, induction, List.dropWhile_cons, List.takeWhile_cons]
        simp only [bne_iff_ne, ne_eq, found, not_false_eq_true, if_true]
        split
        · rfl
        · rfl

/-- Where a character stands, and what comes before and after it. -/
theorem find_byte_cases (wanted : Char) (text : List Char) :
    findByte wanted text = none ∧ text.dropWhile (· != wanted) = [] ∨
      ∃ front rest, text = front ++ wanted :: rest ∧ findByte wanted text = some (bytes front) ∧
        text.takeWhile (· != wanted) = front ∧ text.dropWhile (· != wanted) = wanted :: rest := by
  rw [find_byte_eq]
  cases left : text.dropWhile (· != wanted) with
  | nil => exact Or.inl ⟨if_pos rfl, rfl⟩
  | cons character rest =>
      have same : character = wanted := by
        have first := List.head?_dropWhile_not (· != wanted) text
        simpa [left] using first
      subst same
      refine Or.inr ⟨text.takeWhile (· != character), rest, ?_, if_neg (List.cons_ne_nil _ _), rfl,
        rfl⟩
      rw [← left, List.takeWhile_append_dropWhile]

/-! ### Functions of the prelude -/

def extract (field : DocField) (docs : String) : Unchecked String := do
  let text := docs.toList
  let opening ← ofExcept ((findByte '\x7b' text).elim (.error (.unreadableDocs docs)) .ok)
  let behind ← access (sliceFrom opening text)
  let offset ← ofExcept ((findByte '\x7d' behind).elim (.error (.unreadableDocs docs)) .ok)
  let closing := opening + offset
  let part ← access <|
    match field with
    | .type | .returns => sliceTo opening text
    | .arguments => slice (opening + 1) closing text
    | .description => sliceFrom (closing + 1) text
  return String.ofList (Text.trimmed part)

/-- A length and an index, added as words. No vector is longer than the greatest word, so the sum
of anything longer does not matter. -/
def sum (length : Nat) (index : Int64) : Option Int :=
  if (length : Int) ≤ Int64.maxValue.toInt then
    (Integer.add? (Int64.ofNat length) index).map Int64.toInt
  else some (length + index.toInt)

def modulo (arguments : List Value) : Unchecked Value := do
  let a ← ofExcept (Number.ofValue (← item arguments 0))
  let b ← ofExcept (Number.ofValue (← item arguments 1))
  let rest ← ofExcept (Number.modulo a b)
  return rest.toValue

def compare (order : Float → Float → Bool) (arguments : List Value) : Unchecked Value := do
  let a ← ofExcept (Number.ofValue (← item arguments 0))
  let b ← ofExcept (Number.ofValue (← item arguments 1))
  return .bool (order a.toDouble b.toDouble)

def equals (arguments : List Value) : Unchecked Value := do
  let first ← item arguments 0
  let second ← item arguments 1
  return .bool (Prelude.looselyEqual first second)

def negate (arguments : List Value) : Unchecked Value := do
  let value ← item arguments 0
  return .bool (!value.isTruthy)

def typeOf (arguments : List Value) : Unchecked Value := do
  let value ← item arguments 0
  return .string value.typeName

def arraySize (arguments : List Value) : Unchecked Value := do
  let items ← ofExcept (Prelude.requireArray (← item arguments 0))
  return .int (Int64.ofNat items.length)

def arrayGet (arguments : List Value) : Unchecked Value := do
  let items ← ofExcept (Prelude.requireArray (← item arguments 0))
  let position ← item arguments 1
  match position.integer? with
  | none => ofExcept (.error (.notAnIndex position.typeName))
  | some index =>
      let resolved ← if index.toInt < 0 then access (sum items.length index) else pure index.toInt
      if 0 ≤ resolved ∧ resolved < items.length then item items resolved.toNat
      else ofExcept (.error (.noElement index.toInt items.length))

def reflectPull (site : CallSite) (arguments : List Value) : Unchecked Value := do
  let env ← ofExcept site.requireEnv
  let name ← item arguments 0
  match Prelude.Query.read? name.text arguments[1]? with
  | some query => ofExcept (query.answer env site.position)
  | none => ofExcept (.error .unknownQuery)

def reflectDocs (site : CallSite) (arguments : List Value) : Unchecked Value := do
  let element ← item arguments 0
  let field ← ofExcept (Prelude.readField (← item arguments 1).text)
  match Prelude.Element.ofName element.text with
  | .variable name =>
      let env ← ofExcept site.requireEnv
      if env.vars.contains name then return .null
      else ofExcept (.error (.noSuchVariable name))
  | .procedure name =>
      let env ← ofExcept site.requireEnv
      if env.procedures.contains name then return .null
      else ofExcept (.error (.noSuchProcedure name))
  | .function name =>
      match site.catalogue.docs? name with
      | some docs => return .string (← extract field docs)
      | none => ofExcept (.error (.noSuchFunction name))

def function? : String → Option (CallSite → List Value → Unchecked Value)
  | "modulo" => some fun _ => modulo
  | "lt" => some fun _ => compare fun a b => decide (a < b)
  | "gt" => some fun _ => compare fun a b => decide (b < a)
  | "equals" => some fun _ => equals
  | "not" => some fun _ => negate
  | "typeof" => some fun _ => typeOf
  | "array_size" => some fun _ => arraySize
  | "array_get" => some fun _ => arrayGet
  | "reflect_pull" => some reflectPull
  | "reflect_docs" => some reflectDocs
  | _ => none

section Documentation

variable (returns arguments description : List Char)

abbrev documented : List Char :=
  returns ++ '\x7b' :: (arguments ++ '\x7d' :: description)

theorem slice_arguments :
    slice (bytes returns + 1) (bytes returns + (1 + bytes arguments))
      (documented returns arguments description) = some arguments := by
  have front : bytes (returns ++ ['\x7b']) = bytes returns + 1 := bytes_append _ _
  have cut := slice_from_append (returns ++ ['\x7b']) (arguments ++ '\x7d' :: description)
  rw [front, List.append_assoc, List.singleton_append] at cut
  have length : bytes returns + (1 + bytes arguments) - (bytes returns + 1) = bytes arguments := by
    omega
  rw [slice, if_pos (by omega), cut, length]
  exact slice_to_append arguments _

theorem slice_description :
    sliceFrom (bytes returns + (1 + bytes arguments) + 1)
      (documented returns arguments description) = some description := by
  have front : bytes (returns ++ '\x7b' :: (arguments ++ ['\x7d'])) =
      bytes returns + (1 + (bytes arguments + 1)) := by
    rw [bytes_append]
    congr 1
    exact congrArg (1 + ·) (bytes_append arguments ['\x7d'])
  have cut := slice_from_append (returns ++ '\x7b' :: (arguments ++ ['\x7d'])) description
  rw [front] at cut
  simpa [Nat.add_assoc] using cut

end Documentation

/-- The slices of a documentation string are valid, and are the parts between its braces. -/
theorem extract_eq (field : DocField) (docs : String) :
    extract field docs = ofExcept (Prelude.extractField field docs) := by
  unfold extract Prelude.extractField DocField.extract? Docs.split?
  generalize docs.toList = text
  obtain ⟨missing, left⟩ | ⟨returns, inner, rfl, found, before, left⟩ :=
    find_byte_cases '\x7b' text
  · simp only [missing, left]
    rfl
  · have behind := slice_from_append returns ('\x7b' :: inner)
    have next : findByte '\x7d' ('\x7b' :: inner) = (findByte '\x7d' inner).map (1 + ·) := rfl
    simp only [found, before, left, Option.elim_some, of_except_ok, behind, access_some, next]
    obtain ⟨missing, left'⟩ | ⟨arguments, description, rfl, found', before', left'⟩ :=
      find_byte_cases '\x7d' inner
    · simp only [missing, left']
      rfl
    · simp only [found', before', left', Option.map_some, Option.elim_some, of_except_ok]
      cases field with
      | type | returns =>
          simp only [slice_to_append, access_some]
          rfl
      | arguments =>
          simp only [slice_arguments, access_some]
          rfl
      | description =>
          simp only [slice_description, access_some]
          rfl

/-- A negative index is never below the least word by so much that a length does not make up for
it. -/
theorem sum_negative (length : Nat) {index : Int64} (negative : index.toInt < 0) :
    sum length index = some (length + index.toInt) := by
  unfold sum
  split
  · rename_i fits
    have most : Int64.maxValue.toInt = 2 ^ 63 - 1 := by decide
    have least : Int64.minValue.toInt = -2 ^ 63 := by decide
    have low := Int64.le_toInt index
    have counted : (Int64.ofNat length).toInt = length :=
      Int64.toInt_ofNat_of_lt (by omega)
    rw [Integer.add?, counted]
    cases word : Integer.ofInt? (length + index.toInt) with
    | some found => rw [Option.map_some, Integer.ofInt?_eq_some word]
    | none =>
        unfold Integer.ofInt? at word
        rw [if_pos ⟨by omega, by omega⟩] at word
        cases word
  · rfl

section Functions

variable {arguments : List Value}

theorem one_of_accepted (accepted : (Arity.exactly 1).accepts arguments.length = true) :
    ∃ value, arguments = [value] := by
  rw [Arity.accepts_exactly] at accepted
  exact List.length_eq_one_iff.mp accepted

theorem two_of_accepted {Item : Type} {arguments : List Item}
    (accepted : (Arity.exactly 2).accepts arguments.length = true) :
    ∃ first second, arguments = [first, second] := by
  rw [Arity.accepts_exactly] at accepted
  exact List.length_eq_two.mp accepted

theorem modulo_eq (accepted : (Arity.exactly 2).accepts arguments.length = true) :
    modulo arguments = ofExcept (Prelude.modulo arguments) := by
  obtain ⟨first, second, rfl⟩ := two_of_accepted accepted
  simp only [modulo, Prelude.modulo, Prelude.twoArguments, Prelude.except_ok_bind, item_zero,
    item_one, of_except_bind, of_except_pure]

theorem compare_eq (order : Float → Float → Bool)
    (accepted : (Arity.exactly 2).accepts arguments.length = true) :
    compare order arguments = ofExcept (Prelude.compare order arguments) := by
  obtain ⟨first, second, rfl⟩ := two_of_accepted accepted
  simp only [compare, Prelude.compare, Prelude.twoArguments, Prelude.except_ok_bind, item_zero,
    item_one, of_except_bind, of_except_pure]

theorem equals_eq (accepted : (Arity.exactly 2).accepts arguments.length = true) :
    equals arguments = ofExcept (Prelude.equals arguments) := by
  obtain ⟨first, second, rfl⟩ := two_of_accepted accepted
  rfl

theorem negate_eq (accepted : (Arity.exactly 1).accepts arguments.length = true) :
    negate arguments = ofExcept (Prelude.negate arguments) := by
  obtain ⟨value, rfl⟩ := one_of_accepted accepted
  rfl

theorem type_of_eq (accepted : (Arity.exactly 1).accepts arguments.length = true) :
    typeOf arguments = ofExcept (Prelude.typeOf arguments) := by
  obtain ⟨value, rfl⟩ := one_of_accepted accepted
  rfl

theorem array_size_eq (accepted : (Arity.exactly 1).accepts arguments.length = true) :
    arraySize arguments = ofExcept (Prelude.arraySize arguments) := by
  obtain ⟨value, rfl⟩ := one_of_accepted accepted
  simp only [arraySize, Prelude.arraySize, Prelude.oneArgument, Prelude.except_ok_bind, item_zero,
    of_except_bind, of_except_pure]

/-- An element is taken where the bounds have been checked. -/
theorem element_eq (items : List Value) (resolved : Int) (fault : Fault) :
    (if 0 ≤ resolved ∧ resolved < items.length then item items resolved.toNat
      else ofExcept (.error fault)) =
      ofExcept (match if resolved < 0 then none else items[resolved.toNat]? with
        | some item => .ok item
        | none => .error fault) := by
  by_cases within : 0 ≤ resolved ∧ resolved < items.length
  · have below : resolved.toNat < items.length := by omega
    have found := List.getElem?_eq_getElem below
    rw [if_pos within, if_neg (by omega), item, found]
    rfl
  · rw [if_neg within]
    by_cases negative : resolved < 0
    · rw [if_pos negative]
    · have behind : items.length ≤ resolved.toNat := by omega
      rw [if_neg negative, List.getElem?_eq_none behind]

theorem array_get_eq (accepted : (Arity.exactly 2).accepts arguments.length = true) :
    arrayGet arguments = ofExcept (Prelude.arrayGet arguments) := by
  obtain ⟨array, position, rfl⟩ := two_of_accepted accepted
  simp only [arrayGet, Prelude.arrayGet, Prelude.twoArguments, Prelude.except_ok_bind, item_zero,
    item_one, of_except_bind]
  congr 1
  funext items
  cases position.integer? with
  | none => rfl
  | some index =>
      dsimp only
      by_cases negative : index.toInt < 0
      · simp only [if_pos negative, sum_negative _ negative, access_some]
        exact element_eq items _ _
      · have covered := element_eq items index.toInt (.noElement index.toInt items.length)
        rw [if_neg negative] at covered
        simp only [if_neg negative, pure_bind]
        exact covered

theorem reflect_pull_eq (site : CallSite)
    (accepted : (Arity.between 1 2).accepts arguments.length = true) :
    reflectPull site arguments = ofExcept (Prelude.reflectPull site arguments) := by
  rw [Arity.accepts_between] at accepted
  obtain ⟨name, rest, rfl⟩ := List.exists_cons_of_length_pos accepted.1
  simp only [reflectPull, Prelude.reflectPull, Prelude.oneArgument, Prelude.except_ok_bind,
    item_zero, of_except_bind]
  congr 1
  funext env
  cases Prelude.Query.read? name.text (name :: rest)[1]? <;> rfl

theorem reflect_docs_eq (site : CallSite)
    (accepted : (Arity.exactly 2).accepts arguments.length = true) :
    reflectDocs site arguments = ofExcept (Prelude.reflectDocs site arguments) := by
  obtain ⟨element, fieldName, rfl⟩ := two_of_accepted accepted
  simp only [reflectDocs, Prelude.reflectDocs, Prelude.twoArguments, Prelude.except_ok_bind,
    item_zero, item_one, of_except_bind]
  congr 1
  funext field
  cases Prelude.Element.ofName element.text with
  | «variable» name | procedure name =>
      dsimp only
      rw [of_except_bind]
      congr 1
      funext env
      split <;> rfl
  | function name =>
      dsimp only
      cases site.catalogue.docs? name with
      | none => rfl
      | some docs =>
          dsimp only
          rw [extract_eq, of_except_bind]
          rfl

end Functions

end Unchecked

/-! ### Special forms -/

/-- What happens where an access goes wrong: anything at all. -/
structure Crash where
  function : String → CallSite → List Value → Action
  form : SpecialForm → List Tree → Run Value
  statement : List Tree → Tree

namespace Crash

variable (crash : Run Value) (part : Tree → Run Value)

def child (children : List Tree) (index : Nat) (next : Tree → Run Value) : Run Value :=
  match children[index]? with
  | some child => next child
  | none => crash

def conditional (children : List Tree) : Run Value :=
  child crash children 0 fun condition => do
    let decision ← part condition
    if decision.isTruthy then child crash children 1 part
    else
      match children[2]? with
      | some otherwise => part otherwise
      | none => return .void

/-- Two children each, as long as there are two. -/
def pairs : List Tree → List (List Tree)
  | condition :: branch :: rest => [condition, branch] :: pairs rest
  | _ => []

def remainder : List Tree → List Tree
  | _ :: _ :: rest => remainder rest
  | rest => rest

def choice (otherwise : Option Tree) : List (List Tree) → Run Value
  | [] =>
      match otherwise with
      | some branch => part branch
      | none => return .void
  | pair :: rest =>
      child crash pair 0 fun condition => do
        let decision ← part condition
        if decision.isTruthy then child crash pair 1 part else choice otherwise rest

def assignment (position : Position) (children : List Tree) : Run Value :=
  child crash children 0 fun target =>
    match target.payload with
    | .variable name =>
        child crash children 1 fun expression => do
          let value ← part expression
          Run.modifyEnv (·.set name value)
          return value
    | payload => throw (.typeError (.assignment payload.text) position)

def definition (position : Position) (children : List Tree) : Run Value :=
  child crash children 0 fun nameNode => do
    let name ← definedName position nameNode
    if 1 ≤ children.length then
      let params ← nodeParams part (children.drop 1)
      Run.modifyEnv (·.define ⟨name, params, bodyOf (children.drop 1), position⟩)
      return .void
    else crash

variable {crash part} {children : List Tree}

theorem conditional_eq (accepted : SpecialForm.conditional.arity.accepts children.length = true) :
    conditional crash part children = nodeBranches part children := by
  simp only [SpecialForm.arity, Arity.accepts_between] at accepted
  rcases children with _ | ⟨condition, _ | ⟨branch, _ | ⟨otherwise, _ | ⟨next, rest⟩⟩⟩⟩
  · simp at accepted
  · simp at accepted
  · rfl
  · rfl
  · simp only [List.length_cons] at accepted
    omega

theorem choice_eq : (children : List Tree) →
    choice crash part (remainder children).head? (pairs children) = nodeBranches part children
  | [] | [_] => rfl
  | condition :: branch :: rest => by
      rw [pairs, remainder, choice, choice_eq rest]
      rfl

theorem assignment_eq {position : Position}
    (accepted : SpecialForm.assignment.arity.accepts children.length = true) :
    assignment crash part position children = nodeAssignment part position children := by
  obtain ⟨target, expression, rfl⟩ := Unchecked.two_of_accepted accepted
  rcases target with ⟨payload, _, _, _, _⟩
  cases payload <;> rfl

theorem definition_eq {position : Position}
    (accepted : SpecialForm.procedure.arity.accepts children.length = true) :
    definition crash part position children = nodeDefinition part position children := by
  simp only [SpecialForm.arity, Arity.accepts_atLeast] at accepted
  obtain ⟨nameNode, rest, rfl⟩ := List.exists_cons_of_length_pos accepted
  simp only [definition, child, List.getElem?_cons_zero, if_pos accepted, List.drop_one,
    List.tail_cons, nodeDefinition]

end Crash

/-- The only statement of a sequence is taken out of it by its index. -/
def uncheckedCollapse (crash : Crash) (position : Position) (statements : List Tree) : Tree :=
  match statements.length with
  | 0 => .void position
  | 1 => statements[0]?.getD (crash.statement statements)
  | _ => .call SpecialForm.sequence.name statements position

theorem unchecked_collapse_eq (crash : Crash) (position : Position) (statements : List Tree) :
    uncheckedCollapse crash position statements = collapse position statements := by
  match statements with
  | [] | [_] | _ :: _ :: _ => rfl

/-! ### The unchecked program -/

def Builtin.unchecked (crash : Crash) (builtin : Builtin) : Builtin :=
  match Unchecked.function? builtin.name with
  | none => builtin
  | some function =>
      { builtin with
        run := fun site arguments =>
          match function site arguments with
          | some result => .ofExcept result
          | none => crash.function builtin.name site arguments }

/-- The same functions with another one in the place of each. -/
def Registry.change (registry : Registry) (change : Builtin → Builtin) : Registry :=
  ⟨⟨registry.builtins.entries.map fun (name, builtin) => (name, change builtin)⟩⟩

def Prelude.unchecked (crash : Crash) : Registry :=
  Prelude.registry.change (Builtin.unchecked crash)

section Program

variable (context : Context) (crash : Crash)

def uncheckedForm (part body : Tree → Run Value) (position : Position) (children : List Tree)
    (form : SpecialForm) : Run Value :=
  match form with
  | .conditional => Crash.conditional (crash.form form children) part children
  | .choice =>
      Crash.choice (crash.form form children) part (Crash.remainder children).head?
        (Crash.pairs children)
  | .assignment => Crash.assignment (crash.form form children) part position children
  | .procedure => Crash.definition (crash.form form children) part position children
  | _ => nodeForm context part body position children form

/-- The evaluation of one node. Only the number of children of a special form is looked at. -/
def uncheckedNode (part body : Tree → Run Value) : Tree → Run Value
  | ⟨.call name, position, optimized, facts, children⟩ =>
      match SpecialForm.ofName? name with
      | some form =>
          unlessInterrupted <|
            if form.arity.accepts children.length then
              uncheckedForm context crash part body position children form
            else throw (.arityMismatch name form.arity children.length position)
      | none => evaluateNode context part body ⟨.call name, position, optimized, facts, children⟩
  | node => evaluateNode context part body node

/-- The evaluation with a number of levels of its recursion unfolded, and `bottom` below them. -/
def uncheckedUnfolded (bottom : Tree → Run Value) : Nat → Tree → Run Value
  | 0 => bottom
  | levels + 1 =>
      uncheckedNode context crash (uncheckedUnfolded bottom levels)
        (uncheckedUnfolded bottom levels)

end Program

namespace Registry

variable {registry : Registry} {change : Builtin → Builtin}

theorem find_change (name : String) :
    (registry.change change).find? name = (registry.find? name).map change := by
  unfold find? Bindings.find? Registry.change
  dsimp only
  induction registry.builtins.entries with
  | nil => rfl
  | cons entry rest induction =>
      obtain ⟨first, builtin⟩ := entry
      rw [List.map_cons, List.lookup_cons, List.lookup_cons]
      cases name == first with
      | true => rfl
      | false => exact induction

theorem catalogue_change
    (keeps : ∀ builtin, (change builtin).isPure = builtin.isPure ∧
      (change builtin).docs = builtin.docs) :
    (registry.change change).catalogue = registry.catalogue := by
  unfold catalogue Registry.change
  dsimp only
  rw [List.map_map]
  congr 1
  apply List.map_congr_left
  rintro ⟨name, builtin⟩ -
  simp only [Function.comp_apply, (keeps builtin).1, (keeps builtin).2]

end Registry

namespace Builtin

variable {crash : Crash} {builtin : Builtin}

theorem Agrees.refl (builtin : Builtin) : builtin.Agrees builtin :=
  ⟨rfl, rfl, rfl, rfl, fun _ _ _ => rfl⟩

/-- A function does what it did if its accesses go well for every number of arguments that it
accepts. -/
theorem unchecked_agrees
    (covered : ∀ function, Unchecked.function? builtin.name = some function →
      ∃ known : CallSite → List Value → Except Fault Value,
        builtin.run = (fun site arguments => .ofExcept (known site arguments)) ∧
        ∀ site arguments, builtin.arity.accepts arguments.length = true →
          function site arguments = Unchecked.ofExcept (known site arguments)) :
    builtin.Agrees (builtin.unchecked crash) := by
  unfold unchecked
  cases named : Unchecked.function? builtin.name with
  | none => exact .refl builtin
  | some function =>
      obtain ⟨known, runs, covers⟩ := covered function named
      refine ⟨rfl, rfl, rfl, rfl, fun site arguments accepted => ?_⟩
      dsimp only
      rw [covers site arguments accepted, runs]
      rfl

theorem unchecked_keeps :
    (builtin.unchecked crash).isPure = builtin.isPure ∧
      (builtin.unchecked crash).docs = builtin.docs := by
  unfold unchecked
  split <;> exact ⟨rfl, rfl⟩

end Builtin

namespace Prelude

variable (crash : Crash)

theorem unchecked_functions : ∀ builtin ∈ builtins, builtin.Agrees (builtin.unchecked crash) := by
  have others : ∀ {builtin : Builtin}, Unchecked.function? builtin.name = none →
      builtin.Agrees (builtin.unchecked crash) :=
    fun unnamed => Builtin.unchecked_agrees fun function named => by
      rw [unnamed] at named
      cases named
  simp only [builtins, numeric, general, arrays, reflection, List.cons_append, List.nil_append,
    List.forall_mem_cons]
  refine ⟨others rfl, others rfl, others rfl, others rfl, ?modulo, ?lt, ?gt, others rfl, ?equals,
    ?not, ?typeof, others rfl, others rfl, others rfl, ?get, ?size, ?pull, ?docs,
    List.forall_mem_nil _⟩
  all_goals
    refine Builtin.unchecked_agrees fun function named => ?_
    cases named
    refine ⟨_, rfl, fun site arguments accepted => ?_⟩
  case modulo => exact Unchecked.modulo_eq accepted
  case lt | gt => exact Unchecked.compare_eq _ accepted
  case equals => exact Unchecked.equals_eq accepted
  case not => exact Unchecked.negate_eq accepted
  case typeof => exact Unchecked.type_of_eq accepted
  case get => exact Unchecked.array_get_eq accepted
  case size => exact Unchecked.array_size_eq accepted
  case pull => exact Unchecked.reflect_pull_eq site accepted
  case docs => exact Unchecked.reflect_docs_eq site accepted

theorem unchecked_agrees : registry.Agrees (unchecked crash) where
  catalogue := Registry.catalogue_change fun _ => Builtin.unchecked_keeps
  functions name := by
    rw [unchecked, Registry.find_change]
    cases found : registry.find? name with
    | none => exact .none
    | some builtin =>
        exact .some (unchecked_functions crash builtin (Registry.find_of_list found).1)

end Prelude

section Evaluation

variable (context : Context) (crash : Crash) (part body : Tree → Run Value)

theorem unchecked_form_eq {position : Position} {children : List Tree} (form : SpecialForm)
    (accepted : form.arity.accepts children.length = true) :
    uncheckedForm context crash part body position children form =
      nodeForm context part body position children form := by
  cases form with
  | conditional => exact Crash.conditional_eq accepted
  | choice => exact Crash.choice_eq children
  | assignment => exact Crash.assignment_eq accepted
  | procedure => exact Crash.definition_eq accepted
  | _ => rfl

theorem unchecked_node_eq (tree : Tree) :
    uncheckedNode context crash part body tree = evaluateNode context part body tree := by
  rcases tree with ⟨payload, position, optimized, facts, children⟩
  cases payload with
  | literal value => rfl
  | «variable» name => rfl
  | call name =>
      rw [uncheckedNode, evaluateNode]
      cases SpecialForm.ofName? name with
      | none => rfl
      | some form =>
          dsimp only
          cases accepted : form.arity.accepts children.length with
          | true => rw [unchecked_form_eq context crash part body form accepted]
          | false => rfl

/-- Level by level the unchecked evaluation with the unchecked prelude is the evaluation. -/
theorem unchecked_unfolded_eq (bottom : Tree → Run Value) (levels : Nat) :
    uncheckedUnfolded { context with registry := Prelude.unchecked crash } crash bottom levels =
      unfolded { context with registry := Prelude.registry } bottom levels := by
  induction levels with
  | zero => rfl
  | succ levels induction =>
      funext tree
      rw [uncheckedUnfolded, unfolded, induction, unchecked_node_eq]
      exact (Prelude.unchecked_agrees crash).evaluate_node context _ _ tree

end Evaluation

/-- No script gets to an access that goes wrong. With the accesses as they are made, and with
anything at all to happen where one of them goes wrong, every script is optimized as before, with
the same errors, and every tree, optimized or not, is evaluated as before on every machine. -/
theorem accesses_never_go_wrong (crash : Crash) (options : OptimizeOptions) (context : Context)
    (tree : Tree) :
    Optimizer.optimize ⟨Prelude.unchecked crash, options⟩ tree =
      Optimizer.optimize ⟨Prelude.registry, options⟩ tree ∧
    uncheckedCollapse crash = collapse ∧
    ∀ machine, ∃ levels, ∀ more, levels ≤ more → ∀ bottom,
      uncheckedUnfolded { context with registry := Prelude.unchecked crash } crash bottom more tree
        machine = tree.eval { context with registry := Prelude.registry } machine := by
  refine ⟨(Prelude.unchecked_agrees crash).optimize tree, ?_, fun machine => ?_⟩
  · funext position statements
    exact unchecked_collapse_eq crash position statements
  obtain ⟨levels, same⟩ := many_levels_iff.mp
    ((unfolded_follows { context with registry := Prelude.registry } tree).agrees machine rfl)
  refine ⟨levels, fun more enough bottom => ?_⟩
  rw [unchecked_unfolded_eq]
  exact same more enough bottom

/-- Without the arity there is no result to speak of. -/
example : Unchecked.modulo [.int 1] = none := rfl

end TreeScript
