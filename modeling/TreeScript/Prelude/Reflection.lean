import TreeScript.Registry
import TreeScript.Prelude.Numeric
/-!
# Reflection

Functions that let a script look at itself: at the environment it runs in, at the position of the
call, and at the documentation of functions.
-/

namespace TreeScript

set_option autoImplicit false

namespace Prelude

def unknownFile : String := "Unknown (maybe the interpreter?)"

inductive Query where
  | label
  | command
  | variableNames
  | variable (name : String)
  | line
  | column
  | file
deriving DecidableEq

/-- Letter case does not matter, for the ASCII letters. Only the list of variables takes a
further argument. -/
def Query.read? (name : String) (argument : Option Value) : Option Query :=
  match name.map Char.toLower, argument with
  | "label", none => some .label
  | "command", none => some .command
  | "varlist", none => some .variableNames
  | "varlist", some value => some (.variable value.text)
  | "line_num", none => some .line
  | "col", none => some .column
  | "file", none => some .file
  | _, _ => none

def Query.answer (env : Environment) (position : Position) : Query → Except Fault Value
  | label => .ok (.ofOption (env.label.map .string))
  | command => .ok (.ofOption (env.command.map .string))
  | variableNames => .ok (.array (env.vars.names.map .string))
  | .variable name =>
      match env.get? name with
      | some value => .ok value
      | none => .error (.unboundVariable name)
  | line => .ok (.int (Int64.ofNat position.line.toNat))
  | column => .ok (.int (Int64.ofNat position.column.toNat))
  | file => .ok (.string (position.file.getD unknownFile))

def reflectPull (site : CallSite) (arguments : List Value) : Except Fault Value := do
  let env ← site.requireEnv
  let name ← oneArgument arguments
  match Query.read? name.text arguments[1]? with
  | some query => query.answer env site.position
  | none => .error .unknownQuery

inductive Element where
  | variable (name : String)
  | procedure (name : String)
  | function (name : String)
deriving DecidableEq

def Element.ofName (name : String) : Element :=
  match name.toList.head? with
  | some '@' => .variable name
  | some '_' => .procedure name
  | _ => .function name

def readField (name : String) : Except Fault DocField :=
  match DocField.read? name with
  | some field => .ok field
  | none => .error (.unknownDocField name)

def extractField (field : DocField) (docs : String) : Except Fault String :=
  match field.extract? docs with
  | some part => .ok part
  | none => .error (.unreadableDocs docs)

def reflectDocs (site : CallSite) (arguments : List Value) : Except Fault Value := do
  let (element, fieldName) ← twoArguments arguments
  let field ← readField fieldName.text
  match Element.ofName element.text with
  | .variable name =>
      let env ← site.requireEnv
      if env.vars.contains name then return .null else .error (.noSuchVariable name)
  | .procedure name =>
      let env ← site.requireEnv
      if env.procedures.contains name then return .null else .error (.noSuchProcedure name)
  | .function name =>
      match site.catalogue.docs? name with
      | some docs => return .string (← extractField field docs)
      | none => .error (.noSuchFunction name)

/-- The documentation of a function is fixed before the script runs. Variables and procedures are
looked up while it runs. -/
def docsAreFixed (arguments : List Tree) : Bool :=
  match arguments.head?.bind Tree.value? with
  | some element =>
      match Element.ofName element.text with
      | .function _ => true
      | _ => false
  | none => false

/-- A function that is named outright must exist, and so must a field. -/
def checkDocs (arguments : List Tree) (catalogue : Catalogue) : Except Fault Unit := do
  if let some element := arguments.head?.bind Tree.value? then
    if let .function name := Element.ofName element.text then
      if !catalogue.contains name && (SpecialForm.ofName? name).isNone then
        throw (.noSuchFunction name)
  if let some field := arguments[1]?.bind Tree.value? then
    let _ ← readField field.text

end Prelude

end TreeScript
