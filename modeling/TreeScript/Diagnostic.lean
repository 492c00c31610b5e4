import TreeScript.Program
/-!
# Diagnostic text

How trees, closures, environments and contexts are written out for the people who maintain a
host: the name of the thing and its fields in braces.
-/

namespace TreeScript

set_option autoImplicit false

namespace Diagnostic

def list (items : List String) : String := "[" ++ ", ".intercalate items ++ "]"

def entries (items : List (String × String)) : String :=
  "\x7b" ++ ", ".intercalate (items.map fun (key, item) => key ++ ": " ++ item) ++ "\x7d"

def record (name : String) (fields : List (String × String)) : String :=
  let written := fields.map fun (field, text) => field ++ ": " ++ text
  name ++ " \x7b " ++ ", ".intercalate written ++ " \x7d"

def tagged (tag content : String) : String := tag ++ "(" ++ content ++ ")"

def boolean (flag : Bool) : String := if flag then "true" else "false"

def optional (written : Option String) : String :=
  match written with
  | some written => tagged "Some" written
  | none => "None"

end Diagnostic

open Diagnostic

def Position.diagnostic (position : Position) : String :=
  record "Target"
    [("line", position.line.toNat.repr), ("col", position.column.toNat.repr),
      ("file", optional (position.file.map Text.fileDiagnostic))]

def Payload.diagnostic : Payload → String
  | .literal value => tagged "Literal" value.diagnostic
  | .variable name => tagged "Variable" (Text.diagnostic name)
  | .call name => tagged "Function" (Text.diagnostic name)

mutual

def Tree.diagnostic : Tree → String
  | ⟨payload, position, optimized, _, children⟩ =>
      record "ParseTree"
        [("data", payload.diagnostic), ("target", position.diagnostic),
          ("optimized", boolean optimized), ("children", list (Tree.diagnostics children))]

def Tree.diagnostics : List Tree → List String
  | [] => []
  | child :: rest => Tree.diagnostic child :: Tree.diagnostics rest

end

def Param.diagnostic (param : Param) : String :=
  record "Param" [("name", Text.diagnostic param.name), ("default", param.default.diagnostic)]

def Closure.diagnostic (closure : Closure) : String :=
  record "Closure"
    [("params", list (closure.params.map Param.diagnostic)),
      ("body", Text.diagnostic closure.text), ("target", closure.position.diagnostic)]

def Environment.diagnostic (env : Environment) : String :=
  record "Environment"
    [("variables", entries (env.vars.entries.map fun (name, value) =>
        (Text.diagnostic name, value.diagnostic))),
      ("procedures", list (env.procedures.names.map Text.diagnostic)),
      ("label", optional (env.label.map Text.diagnostic)),
      ("command", optional (env.command.map Text.diagnostic)),
      ("script", optional (env.script.map Text.diagnostic)), ("call_depth", env.depth.repr)]

def Builtin.diagnostic (builtin : Builtin) : String := tagged "BuiltinFn" builtin.name

def Registry.diagnostic (registry : Registry) : String :=
  record "FunctionRegistry" [("functions", list (registry.names.map Text.diagnostic))]

def Context.diagnostic (context : Context) (store : Store) : String :=
  record "EvalContext"
    [("max_call_depth", context.maxDepth.repr), ("interrupt", boolean store.interrupted),
      ("trace", boolean context.trace), ("registry", context.registry.diagnostic),
      ("reaction", boolean context.reacts)]

end TreeScript
