import TreeScript.Text.Path
/-!
# Positions

Where a node of a script was written. A position without line, column and file is unknown.
-/

namespace TreeScript

set_option autoImplicit false

structure Position where
  line : UInt32 := 0
  column : UInt32 := 0
  file : Option String := none
deriving DecidableEq, Inhabited

namespace Position

def unknown : Position := {}

def isUnknown (position : Position) : Bool := position == unknown

/-- A file is written before the line and the column; without one they are spelled out. -/
def text (position : Position) : String :=
  match position.file with
  | some file => s!"{file}:{position.line.toNat}:{position.column.toNat}"
  | none =>
      if position.isUnknown then "<unknown>"
      else s!"line {position.line.toNat}, col {position.column.toNat}"

/-- Whether two positions are the same place. A file may be named in more than one way. -/
def same (first second : Position) : Bool :=
  first.line == second.line && first.column == second.column &&
    match first.file, second.file with
    | some file, some other => Text.samePath file other
    | none, none => true
    | _, _ => false

@[simp] theorem same_self (position : Position) : position.same position = true := by
  obtain ⟨line, column, file⟩ := position
  cases file <;> simp [same]

theorem isUnknown_iff (position : Position) : position.isUnknown = true ↔ position = unknown := by
  simp [isUnknown]

end Position

end TreeScript
