import TreeScript.Proofs.Rewriting
/-!
# What the frames know

Everything that happens to the frames during a visit amounts to hiding names, once the frames that
were opened on the way are gone. So what is known afterwards was known before.
-/

namespace TreeScript

set_option autoImplicit false

namespace Scopes

def known (scopes : Scopes) : Known := fun name =>
  match find? name scopes with
  | some (.inlinable template) => some template
  | _ => none

theorem known_eq_some {scopes : Scopes} {name : String} {template : Template} :
    scopes.known name = some template ↔ find? name scopes = some (.inlinable template) := by
  unfold known
  split
  · rename_i other found
    rw [found, Option.some.injEq, Option.some.injEq, Definition.inlinable.injEq]
  · rename_i unknown
    constructor
    · intro found
      cases found
    · intro found
      exact absurd found (unknown template)

def hideAll (names : List String) (scopes : Scopes) : Scopes :=
  names.foldl (fun scopes name => hide name scopes) scopes

def Holds (holds : Template → Prop) (scopes : Scopes) : Prop :=
  ∀ frame ∈ scopes, ∀ name template,
    frame.definitions.find? name = some (.inlinable template) → holds template

theorem find_record (frame : Frame) (name other : String) (definition : Definition) :
    (frame.record name definition).definitions.find? other =
      if other = name then some definition else frame.definitions.find? other :=
  Bindings.find?_put frame.definitions name other definition

theorem find_hide_other {name other : String} (differs : other ≠ name) (scopes : Scopes) :
    find? other (hide name scopes) = find? other scopes := by
  induction scopes with
  | nil => rfl
  | cons frame outer induction =>
      have recorded := find_record frame name other .hidden
      rw [if_neg differs] at recorded
      have kind : (frame.record name .hidden).kind = frame.kind := rfl
      simp only [hide, find?, recorded, kind]
      cases frame.definitions.find? other with
      | some definition => rfl
      | none =>
          by_cases sequence : frame.kind = .sequence
          · rw [if_pos sequence, induction]
          · rw [if_neg sequence]

theorem find_hide_same (name : String) {scopes : Scopes} (some_frame : scopes ≠ []) :
    find? name (hide name scopes) = some .hidden := by
  cases scopes with
  | nil => exact absurd rfl some_frame
  | cons frame outer =>
      have recorded := find_record frame name name .hidden
      rw [if_pos rfl] at recorded
      simp only [hide, find?, recorded]

theorem hide_ne_nil (name : String) {scopes : Scopes} (some_frame : scopes ≠ []) :
    hide name scopes ≠ [] := by
  cases scopes with
  | nil => exact absurd rfl some_frame
  | cons frame outer => simp [hide]

theorem hide_all_cons (name : String) (names : List String) (scopes : Scopes) :
    hideAll (name :: names) scopes = hideAll names (hide name scopes) := rfl

theorem hide_all_append (names names' : List String) (scopes : Scopes) :
    hideAll (names ++ names') scopes = hideAll names' (hideAll names scopes) :=
  List.foldl_append

theorem hide_all_ne_nil (names : List String) {scopes : Scopes} (some_frame : scopes ≠ []) :
    hideAll names scopes ≠ [] := by
  induction names generalizing scopes with
  | nil => exact some_frame
  | cons name names induction => exact induction (hide_ne_nil name some_frame)

/-- What is known after names have been hidden was known before. -/
theorem known_hide_all {names : List String} {scopes : Scopes} (some_frame : scopes ≠ [])
    {name : String} {template : Template}
    (found : (hideAll names scopes).known name = some template) :
    scopes.known name = some template ∧ name ∉ names := by
  induction names generalizing scopes with
  | nil => exact ⟨found, by simp⟩
  | cons first names induction =>
      rcases induction (hide_ne_nil first some_frame) found with ⟨before, outside⟩
      by_cases same : name = first
      · subst same
        rw [known, find_hide_same name some_frame] at before
        cases before
      · rw [known, find_hide_other same] at before
        exact ⟨before, by simp [same, outside]⟩

/-- Hiding names under a frame of a sequence reaches the frames around it. -/
theorem hide_all_sequence (names : List String) {frame : Frame} (sequence : frame.kind = .sequence)
    (outer : Scopes) :
    ∃ frame', frame'.kind = .sequence ∧
      hideAll names (frame :: outer) = frame' :: hideAll names outer := by
  induction names generalizing frame outer with
  | nil => exact ⟨frame, sequence, rfl⟩
  | cons name names induction =>
      have kind : (frame.record name .hidden).kind = .sequence := sequence
      rcases induction kind (hide name outer) with ⟨frame', sequence', same⟩
      refine ⟨frame', sequence', ?_⟩
      rw [hide_all_cons, hide, if_pos sequence, same]
      rfl

/-- Hiding names under any other frame stays inside of it. -/
theorem hide_all_other (names : List String) {frame : Frame} (other : frame.kind ≠ .sequence)
    (outer : Scopes) : ∃ frame', hideAll names (frame :: outer) = frame' :: outer := by
  induction names generalizing frame with
  | nil => exact ⟨frame, rfl⟩
  | cons name names induction =>
      have kind : (frame.record name .hidden).kind ≠ .sequence := other
      rcases induction kind with ⟨frame', same⟩
      refine ⟨frame', ?_⟩
      rw [hide_all_cons, hide, if_neg other, same]

theorem pop_cons (frame : Frame) {outer : Scopes} (some_frame : outer ≠ []) :
    pop (frame :: outer) = outer := by
  cases outer with
  | nil => exact absurd rfl some_frame
  | cons next rest => rfl

theorem pop_hide_all_other (names : List String) {kind : FrameKind} (other : kind ≠ .sequence)
    {scopes : Scopes} (some_frame : scopes ≠ []) :
    (hideAll names (scopes.push kind)).pop = scopes := by
  rcases @hide_all_other names { kind } other scopes with ⟨frame, same⟩
  rw [push, same, pop_cons frame some_frame]

theorem known_push_procedure (scopes : Scopes) : (scopes.push .procedure).known = .nothing := rfl

theorem known_push {kind : FrameKind} (other : kind ≠ .procedure) (scopes : Scopes) :
    (scopes.push kind).known = scopes.known := by
  funext name
  unfold known
  have found : find? name (scopes.push kind) = find? name scopes := by
    unfold push
    rw [find?]
    exact if_neg other
  rw [found]

/-- A direct definition says what its name means, and hides it around the sequence. -/
theorem known_define_direct {frame : Frame} {outer : Scopes} {name other : String}
    {definition : Definition} {template : Template}
    (found : known (define name definition .direct (frame :: outer)) other = some template) :
    other = name ∧ definition = .inlinable template ∨
      other ≠ name ∧ known (frame :: outer) other = some template := by
  by_cases same : other = name
  · subst same
    have recorded := find_record frame other other definition
    rw [if_pos rfl] at recorded
    unfold known at found
    simp only [define, find?, recorded] at found
    cases definition with
    | inlinable template' =>
        cases found
        exact Or.inl ⟨rfl, rfl⟩
    | hidden => cases found
  · have recorded := find_record frame name other definition
    rw [if_neg same] at recorded
    have kind : (frame.record name definition).kind = frame.kind := rfl
    unfold known at found ⊢
    simp only [define, find?, recorded, kind] at found ⊢
    rw [find_hide_other same] at found
    exact Or.inr ⟨same, found⟩

namespace Holds

variable {holds : Template → Prop} {scopes : Scopes}

theorem initial (holds : Template → Prop) : Scopes.initial.Holds holds := by
  intro frame member name template found
  rw [List.mem_singleton.mp member] at found
  cases found

theorem of_known (all : scopes.Holds holds) {name : String} {template : Template}
    (found : scopes.known name = some template) : holds template := by
  induction scopes with
  | nil => cases found
  | cons frame outer induction =>
      have later : Scopes.Holds holds outer :=
        fun other member => all other (List.mem_cons_of_mem _ member)
      unfold Scopes.known at found
      rw [Scopes.find?] at found
      cases here : frame.definitions.find? name with
      | some definition =>
          rw [here] at found
          cases definition with
          | inlinable template' =>
              cases found
              exact all frame List.mem_cons_self name template here
          | hidden => cases found
      | none =>
          rw [here] at found
          by_cases procedure : frame.kind = .procedure
          · simp [procedure] at found
          · simp only [if_neg procedure] at found
            exact induction later found

theorem record {frame : Frame} {outer : Scopes} (all : Scopes.Holds holds (frame :: outer))
    (name : String) (definition : Definition)
    (new : ∀ template, definition = .inlinable template → holds template) :
    Scopes.Holds holds (frame.record name definition :: outer) := by
  intro other member named template found
  rcases List.mem_cons.mp member with rfl | later
  · rw [find_record] at found
    split at found
    · exact new template (Option.some.inj found)
    · exact all frame List.mem_cons_self named template found
  · exact all other (List.mem_cons_of_mem _ later) named template found

theorem cons {frame : Frame} {outer outer' : Scopes} (all : Scopes.Holds holds (frame :: outer))
    (others : Scopes.Holds holds outer') : Scopes.Holds holds (frame :: outer') := by
  intro other member
  rcases List.mem_cons.mp member with rfl | later
  · exact all _ List.mem_cons_self
  · exact others other later

theorem tail {frame : Frame} {outer : Scopes} (all : Scopes.Holds holds (frame :: outer)) :
    Scopes.Holds holds outer :=
  fun other member => all other (List.mem_cons_of_mem _ member)

theorem hide (all : scopes.Holds holds) (name : String) :
    Scopes.Holds holds (scopes.hide name) := by
  induction scopes with
  | nil => exact all
  | cons frame outer induction =>
      have recorded := all.record name .hidden fun template same => by cases same
      rw [Scopes.hide]
      split
      · exact recorded.cons (induction all.tail)
      · exact recorded

theorem hide_all (all : scopes.Holds holds) (names : List String) :
    Scopes.Holds holds (hideAll names scopes) := by
  induction names generalizing scopes with
  | nil => exact all
  | cons name names induction => exact induction (all.hide name)

theorem push (all : scopes.Holds holds) (kind : FrameKind) :
    Scopes.Holds holds (scopes.push kind) := by
  intro frame member
  rcases List.mem_cons.mp member with rfl | later
  · intro name template found
    cases found
  · exact all frame later

theorem define_direct {frame : Frame} {outer : Scopes}
    (all : Scopes.Holds holds (frame :: outer)) (name : String) {definition : Definition}
    (new : ∀ template, definition = .inlinable template → holds template) :
    Scopes.Holds holds (define name definition .direct (frame :: outer)) :=
  (all.record name definition new).cons (all.tail.hide name)

theorem define (all : scopes.Holds holds) (name : String) {definition : Definition}
    (new : ∀ template, definition = .inlinable template → holds template)
    (placement : Placement) :
    Scopes.Holds holds (Scopes.define name definition placement scopes) := by
  cases placement with
  | nested => exact all.hide name
  | direct =>
      cases scopes with
      | nil => exact all
      | cons frame outer => exact all.define_direct name new

theorem pop (all : scopes.Holds holds) : Scopes.Holds holds scopes.pop := by
  unfold Scopes.pop
  split
  · exact all.tail
  · exact all

end Holds

end Scopes

end TreeScript
