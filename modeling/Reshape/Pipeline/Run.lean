import Reshape.Pipeline.Operation
import Reshape.Pipeline.Segment

/-!
# Running pipelines

A forward run takes the segments of a pipeline from left to right, a reverse run from right to left.
The target of the run belongs to the last segment taken. A building segment hands the part of the
target below its own path to the segment before it, so nested buildings meet the right level of the
target.
-/

namespace Reshape

variable {ω : Type}

/-- The value and the context behind a segment, or nothing if the run ends there. -/
def Segment.run (seg : Segment (Action ω)) (v : Value) (s : State) :
    Task ω (Option (Value × Context)) :=
  match seg with
  | .path .extract steps =>
    .done (some (Path.extract s.nonvalues (steps.filterMap PathStep.move?) v s.context))
  | .path .construct steps =>
    let moves := steps.filterMap PathStep.move?
    .done (some (Path.construct s.nonvalues s.context s.target v moves, s.context))
  | .barrier blocks => .done (if blocks = s.effective then none else some (v, s.context))
  | .other act => (act v s).map fun out => out.map fun v => (v, s.context)

/-- Takes the segments one after the other; a run that ends early has no value. -/
def runSegments (s : State) (segments : List (Segment (Action ω))) (v : Value) (c : Context) :
    Task ω Value :=
  match segments with
  | [] => .done v
  | seg :: rest => do
    let here := { s with context := c, target := Segment.targetBefore s.target rest }
    match ← seg.run v here with
    | some (v, c) => runSegments s rest v c
    | none => .done .absent

/-- Runs a list of path steps and actions. -/
def runParts (ps : List (Part (Action ω))) : Runner ω := fun v s =>
  let segments := Segment.ofParts s.effective ps
  runSegments s (if s.isReverse then segments.reverse else segments) v s.context

/-! ### The meaning of steps -/

mutual

/-- A step as a path step or an action. -/
def Step.part : Step ω → Part (Action ω)
  | .path p => .inl p
  | .shape sh => .inr fun v s => (runShape sh v s).map some
  | .op o flags => .inr (flags.guard (runOp flags.iterate o))

def runShape : Shape (Step ω) → Runner ω
  | ⟨fields, iterate, flip, noDefaults, always, only⟩ =>
    Shape.run ⟨fields, iterate, flip, noDefaults, always, only⟩ (branches fields)

/-- The fields of a shape. A closing merge is left to the shape. -/
def branches : List (Field (Step ω)) → List (Branch ω)
  | [] => []
  | ⟨key, steps, only⟩ :: rest =>
    let merge := (Field.mk key steps only).merge
    let ps := stepParts steps
    { merge, only, run := runParts (if merge.isSome then ps.dropLast else ps) } :: branches rest

/-- An operation, item by item if it iterates. A filter sees to the items of a sequence itself. -/
def runOp (iterate : Bool) : Op ω (Step ω) → Runner ω
  | .transform call => perItem call.transform.call
  | .filter call => Op.runFilter call
  | .value source fixed => perItem (Op.runValue source fixed)
  | .alt ps => perItem (Op.runAlt (runners ps))
  | .apply _ steps => perItem (runParts (stepParts steps))
  | .lookup array key =>
    perItem (Op.runLookup (runParts (stepParts array)) (runParts (stepParts key)))
  | .concat ps => perItem (Op.runConcat (runners ps))
where
  perItem (body : Runner ω) : Runner ω := if iterate then body.onItems else body

def runners : List (List (Step ω)) → List (Runner ω)
  | [] => []
  | p :: rest => runParts (stepParts p) :: runners rest

def stepParts : List (Step ω) → List (Part (Action ω))
  | [] => []
  | s :: rest => s.part :: stepParts rest

end

namespace Pipeline

/-- Runs the steps of a pipeline as they are. -/
def runSteps (p : Pipeline ω) : Runner ω :=
  runParts (stepParts p)

/-- Runs a pipeline. A nonvalue yields absence without a run, unless some shape runs on
nonvalues. -/
def start (p : Pipeline ω) : Runner ω := fun v s =>
  if s.isNonvalue v && !p.hasAlways then .done .absent else p.runSteps v s

/-- A synchronous run, in the given state of the host. -/
def run (p : Pipeline ω) (v : Value) (o : Options) (w : ω) : Except Fault Value × ω :=
  (p.start v (.ofOptions o)).runSync w

/-- A run that waits for suspended transforms. -/
def runAsync (p : Pipeline ω) (v : Value) (o : Options) (w : ω) : Except Fault Value × ω :=
  (p.start v (.ofOptions o)).complete w

end Pipeline

end Reshape
