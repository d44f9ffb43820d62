import Reshape.Path.Construct

/-!
# Segments

Before a run, the steps of a pipeline are grouped: a maximal run of path steps in one mode is a
segment, and so is every barrier and everything that is not a path step. `parts_ofParts` says that
nothing is lost or reordered.
-/

namespace Reshape

/-- A step as segmentation sees it: a path step, or something else. -/
abbrev Part (β : Type) := PathStep ⊕ β

inductive Segment (β : Type) where
  | path (mode : Mode) (steps : List PathStep)
  | barrier (blocks : Direction)
  | other (b : β)

namespace Segment

variable {β : Type}

/-- The steps that a segment was made of. -/
def parts : Segment β → List (Part β)
  | path _ steps => steps.map .inl
  | barrier blocks => [.inl (.barrier blocks)]
  | other b => [.inr b]

/-- Puts a path step of the given mode in front, into the first segment if it has that mode. -/
def consPath (mode : Mode) (step : PathStep) : List (Segment β) → List (Segment β)
  | path m steps :: rest =>
    if m = mode then path mode (step :: steps) :: rest
    else path mode [step] :: path m steps :: rest
  | segments => path mode [step] :: segments

/-- The segments of a list of steps in a run with effective direction `d`. -/
def ofParts (d : Direction) : List (Part β) → List (Segment β)
  | [] => []
  | .inl (.barrier blocks) :: rest => barrier blocks :: ofParts d rest
  | .inl (.move m inverted) :: rest =>
    consPath (if inverted == d.isReverse then .extract else .construct) (.move m inverted)
      (ofParts d rest)
  | .inr b :: rest => other b :: ofParts d rest

theorem parts_consPath (mode : Mode) (step : PathStep) (segments : List (Segment β)) :
    (consPath mode step segments).flatMap parts = .inl step :: segments.flatMap parts := by
  cases segments with
  | nil => simp [consPath, parts]
  | cons s rest =>
    cases s with
    | path m steps =>
      simp only [consPath]
      split <;> simp [parts]
    | _ => simp [consPath, parts]

theorem parts_ofParts (d : Direction) (ps : List (Part β)) :
    (ofParts d ps).flatMap parts = ps := by
  induction ps with
  | nil => rfl
  | cons p rest ih =>
    rcases p with (_ | _) | _
    · rw [ofParts, parts_consPath, ih]
    · simp [ofParts, parts, ih]
    · simp [ofParts, parts, ih]

/-- The target that a segment hands to the one before it in the order of the run. -/
def handOn (target : Option Value) : Segment β → Option Value
  | path .construct steps => target.bind (Path.navigate · (steps.filterMap PathStep.move?))
  | barrier _ => target
  | path .extract _ | other _ => none

/-- The target for whatever runs before `segments`, when the last of them has `target`. -/
def targetBefore (target : Option Value) : List (Segment β) → Option Value
  | [] => target
  | s :: rest => s.handOn (targetBefore target rest)

end Segment

end Reshape
