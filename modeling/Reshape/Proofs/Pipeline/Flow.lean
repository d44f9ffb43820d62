import Reshape.Pipeline.Run

/-!
# The flow of a run

A run as a chain of segments. `flow` is what a list of segments makes of a value and its context,
and the flows of two lists compose (`flow_append`). Path steps that share a mode fuse into one
segment (`ofParts_moves`), so the run of a bare path is a single reading (`runSteps_extract`) or a
single building (`runSteps_construct`).
-/

namespace Reshape

variable {ω : Type}

/-! ### Composition -/

/-- What segments, taken one after the other, make of a value and a context, or nothing if one of
them ends the run. -/
def flow (s : State) : List (Segment (Action ω)) → Value → Context →
    Task ω (Option (Value × Context))
  | [], v, c => .done (some (v, c))
  | seg :: rest, v, c =>
    (seg.run v { s with context := c, target := Segment.targetBefore s.target rest }).bind fun
      | some (v, c) => flow s rest v c
      | none => .done none

theorem runSegments_eq_flow (s : State) (segments : List (Segment (Action ω))) (v : Value)
    (c : Context) :
    runSegments s segments v c =
      (flow s segments v c).map fun out => (out.map Prod.fst).getD .absent := by
  induction segments generalizing v c with
  | nil => rfl
  | cons seg rest ih =>
    simp only [runSegments, flow, Task.bind_def, Task.bind_map]
    refine Task.bind_congr fun out => ?_
    rcases out with _ | ⟨v, c⟩
    · rfl
    · exact ih v c

theorem Segment.targetBefore_append {β : Type} (target : Option Value) (xs ys : List (Segment β)) :
    targetBefore target (xs ++ ys) = targetBefore (targetBefore target ys) xs := by
  induction xs with
  | nil => rfl
  | cons seg rest ih => simp only [List.cons_append, targetBefore, ih]

/-- The segments in front run with the target that the others hand on. -/
theorem flow_append (s : State) (xs ys : List (Segment (Action ω))) (v : Value) (c : Context) :
    flow s (xs ++ ys) v c =
      (flow (s.withTarget (Segment.targetBefore s.target ys)) xs v c).bind fun
        | some (v, c) => flow s ys v c
        | none => .done none := by
  induction xs generalizing v c with
  | nil => rfl
  | cons seg rest ih =>
    simp only [List.cons_append, flow, Task.bind_assoc, Segment.targetBefore_append]
    refine Task.bind_congr fun out => ?_
    rcases out with _ | ⟨v, c⟩
    · rfl
    · exact ih v c

theorem flow_singleton (s : State) (seg : Segment (Action ω)) (v : Value) (c : Context) :
    flow s [seg] v c = seg.run v { s with context := c } := by
  simp only [flow, Segment.targetBefore]
  refine Eq.trans (Task.bind_congr fun out => ?_) (Task.bind_done _)
  rcases out with _ | ⟨v, c⟩ <;> rfl

/-! ### Blocks of path steps -/

namespace Segment

variable {β : Type}

/-- The mode of a step with the given inversion flag. -/
def modeOf (d : Direction) (inverted : Bool) : Mode :=
  if inverted == d.isReverse then .extract else .construct

/-- A block of steps with one mode in front of segments: it joins a first segment of its mode. -/
def consBlock (mode : Mode) (steps : List PathStep) : List (Segment β) → List (Segment β)
  | path m more :: rest =>
    if m = mode then path mode (steps ++ more) :: rest else path mode steps :: path m more :: rest
  | segments => path mode steps :: segments

theorem consPath_eq_consBlock (mode : Mode) (step : PathStep) (segments : List (Segment β)) :
    consPath mode step segments = consBlock mode [step] segments := by
  rcases segments with _ | ⟨_ | _ | _, rest⟩ <;> rfl

theorem consPath_consBlock (mode : Mode) (step : PathStep) (steps : List PathStep)
    (segments : List (Segment β)) :
    consPath mode step (consBlock mode steps segments) =
      consBlock mode (step :: steps) segments := by
  rcases segments with _ | ⟨_ | _ | _, rest⟩
  · simp [consBlock, consPath]
  · simp only [consBlock]
    split <;> simp [consPath]
  · simp [consBlock, consPath]
  · simp [consBlock, consPath]

/-- Moves with one inversion flag make a block. -/
theorem ofParts_moves (d : Direction) (inverted : Bool) {moves : List Move} (h : moves ≠ [])
    (rest : List (Part β)) :
    ofParts d (moves.map (fun m => .inl (.move m inverted)) ++ rest) =
      consBlock (modeOf d inverted) (moves.map (.move · inverted)) (ofParts d rest) := by
  induction moves with
  | nil => exact absurd rfl h
  | cons m more ih =>
    simp only [List.map_cons, List.cons_append, ofParts]
    cases more with
    | nil => exact consPath_eq_consBlock ..
    | cons m' more =>
      rw [ih (by simp)]
      exact consPath_consBlock ..

/-- A block alone is one segment. -/
theorem ofParts_block (d : Direction) (inverted : Bool) {moves : List Move} (h : moves ≠ []) :
    (ofParts d (moves.map fun m => .inl (.move m inverted)) : List (Segment β)) =
      [path (modeOf d inverted) (moves.map (.move · inverted))] := by
  have hparts := ofParts_moves d inverted h ([] : List (Part β))
  rwa [List.append_nil] at hparts

theorem filterMap_move? (inverted : Bool) (moves : List Move) :
    (moves.map (PathStep.move · inverted)).filterMap PathStep.move? = moves := by
  induction moves with
  | nil => rfl
  | cons m rest ih => simpa [PathStep.move?] using ih

end Segment

/-! ### Runs of step lists -/

/-- What is no nonvalue is always run. -/
theorem start_present {s : State} {v : Value} (hv : s.isNonvalue v = false) (p : Pipeline ω) :
    p.start v s = p.runSteps v s := by
  rw [Pipeline.start, hv, Bool.false_and, if_neg Bool.false_ne_true]

theorem runSteps_of_forward {s : State} (hs : s.effective = .forward) (p : Pipeline ω) (v : Value) :
    p.runSteps v s = runSegments s (Segment.ofParts .forward (stepParts p)) v s.context := by
  simp [Pipeline.runSteps, runParts, State.isReverse, hs, Direction.isReverse]

theorem runSteps_of_reverse {s : State} (hs : s.effective = .reverse) (p : Pipeline ω) (v : Value) :
    p.runSteps v s =
      runSegments s (Segment.ofParts .reverse (stepParts p)).reverse v s.context := by
  simp [Pipeline.runSteps, runParts, State.isReverse, hs, Direction.isReverse]

/-- The run of an action alone; one that ends the run has no value. -/
theorem runParts_action (act : Action ω) (v : Value) (s : State) :
    runParts [.inr act] v s = (act v s).map fun out => out.getD .absent := by
  have hparts (d : Direction) : Segment.ofParts d [.inr act] = [.other act] := rfl
  simp only [runParts, hparts, List.reverse_singleton, ite_self, runSegments, Segment.run,
    Segment.targetBefore, Task.bind_def, Task.map_bind]
  refine Task.bind_congr fun out => ?_
  cases out <;> rfl

theorem runSteps_shape (sh : Shape (Step ω)) (x : Value) (s : State) :
    Pipeline.runSteps [.shape sh] x s = runShape sh x s := by
  rw [Pipeline.runSteps, stepParts, stepParts, Step.part, runParts_action, Task.map, Task.map_bind]
  exact Task.bind_done _

/-- A shape by itself is run on every value that it does not skip. -/
theorem start_shape {sh : Shape (Step ω)} {v : Value} {s : State}
    (hruns : (s.isNonvalue v && !sh.always) = false) :
    Pipeline.start [.shape sh] v s = runShape sh v s := by
  have halways (h : sh.always = true) : Pipeline.hasAlways [.shape sh] = true := by
    obtain ⟨fields, iterate, flip, noDefaults, always, only⟩ := sh
    obtain rfl : always = true := h
    rfl
  rw [← runSteps_shape, Pipeline.start]
  refine if_neg ?_
  cases hv : s.isNonvalue v with
  | false => simp
  | true => simp [halways (by simpa [hv] using hruns)]

/-- A shape that neither iterates nor is restricted assembles every value that it does not skip. -/
theorem runShape_assemble {sh : Shape (Step ω)} (hiterate : sh.iterate = false)
    (honly : sh.only = none) {v : Value} {s : State}
    (hruns : (s.isNonvalue v && !sh.always) = false) :
    runShape sh v s = assemble (branches sh.fields) v (sh.enter s) := by
  obtain ⟨fields, iterate, flip, noDefaults, always, only⟩ := sh
  obtain rfl : iterate = false := hiterate
  obtain rfl : only = none := honly
  simp only [runShape, Shape.run, Direction.admits, Bool.not_true, Bool.false_eq_true, if_false,
    hruns]

/-- An operation without flags, by itself, has no value for what it passes over. -/
theorem runSteps_op (op : Op ω (Step ω)) (v : Value) (s : State) :
    Pipeline.runSteps [.op op {}] v s =
      if s.isNonvalue v && !s.always then .done .absent else runOp false op v s := by
  rw [Pipeline.runSteps, stepParts, stepParts, Step.part, runParts_action]
  simp only [Flags.guard, Direction.admits, Bool.not_true, Bool.false_eq_true, if_false]
  split
  · rfl
  · simp only [Task.map_map, Option.getD_some]
    exact Task.bind_done _

/-- An operation without flags is run on everything that is no nonvalue. -/
theorem start_op {s : State} {v : Value} (hv : s.isNonvalue v = false) (op : Op ω (Step ω)) :
    Pipeline.start [.op op {}] v s = runOp false op v s := by
  rw [start_present hv, runSteps_op, hv, Bool.false_and, if_neg Bool.false_ne_true]

theorem runners_eq_map (ps : List (Pipeline ω)) : runners ps = ps.map Pipeline.runSteps := by
  induction ps with
  | nil => rfl
  | cons p rest ih => rw [runners, ih]; rfl

theorem stepParts_append (p q : Pipeline ω) : stepParts (p ++ q) = stepParts p ++ stepParts q := by
  induction p with
  | nil => rfl
  | cons s rest ih => simp only [List.cons_append, stepParts, ih]

/-! ### Bare paths -/

theorem stepParts_ofPath (steps : List PathStep) :
    stepParts (Step.ofPath steps : Pipeline ω) = steps.map .inl := by
  induction steps with
  | nil => rfl
  | cons s rest ih => simpa [Step.ofPath, stepParts, Step.part] using ih

/-- The pipeline of moves with one inversion flag. -/
def Step.ofMoves (inverted : Bool) (moves : List Move) : Pipeline ω :=
  Step.ofPath (moves.map (.move · inverted))

theorem stepParts_ofMoves (inverted : Bool) (moves : List Move) :
    stepParts (Step.ofMoves inverted moves : Pipeline ω) =
      moves.map fun m => .inl (.move m inverted) := by
  simp [Step.ofMoves, stepParts_ofPath]

theorem stepsHaveAlways_append (p q : Pipeline ω) :
    stepsHaveAlways (p ++ q) = (stepsHaveAlways p || stepsHaveAlways q) := by
  induction p with
  | nil => rfl
  | cons s rest ih => simp only [List.cons_append, stepsHaveAlways, ih, Bool.or_assoc]

@[simp] theorem hasAlways_ofPath (steps : List PathStep) :
    Pipeline.hasAlways (Step.ofPath steps : Pipeline ω) = false := by
  induction steps with
  | nil => rfl
  | cons s rest ih =>
    simpa [Pipeline.hasAlways, Step.ofPath, stepsHaveAlways, Step.hasAlways] using ih

section
variable {s : State} {inverted : Bool}

private theorem runSteps_block {moves : List Move} (h : moves ≠ []) (v : Value) :
    Pipeline.runSteps (Step.ofMoves inverted moves : Pipeline ω) v s =
      runSegments s [.path (Segment.modeOf s.effective inverted) (moves.map (.move · inverted))] v
        s.context := by
  simp only [Pipeline.runSteps, runParts, stepParts_ofMoves, Segment.ofParts_block _ _ h,
    List.reverse_singleton, ite_self]

/-- A path whose steps read in the direction of the run is read. -/
theorem runSteps_extract (h : inverted = s.isReverse) (moves : List Move) (v : Value) :
    Pipeline.runSteps (Step.ofMoves inverted moves : Pipeline ω) v s =
      .done (Path.extract s.nonvalues moves v s.context).1 := by
  by_cases hne : moves = []
  · subst hne
    simp only [Pipeline.runSteps, runParts, stepParts_ofMoves]
    split <;> rfl
  · have hmode : Segment.modeOf s.effective inverted = .extract := by
      simp [Segment.modeOf, h, State.isReverse]
    simp only [runSteps_block hne, hmode, runSegments, Segment.run, Segment.filterMap_move?,
      Task.bind_def, Task.done_bind]

/-- A run along moves that read in its direction reads whatever is not passed over. -/
theorem start_moves (h : inverted = s.isReverse) (moves : List Move) (v : Value) :
    Pipeline.start (Step.ofMoves inverted moves : Pipeline ω) v s =
      .done (if s.isNonvalue v then .absent
        else (Path.extract s.nonvalues moves v s.context).1) := by
  have halways : Pipeline.hasAlways (Step.ofMoves inverted moves : Pipeline ω) = false :=
    hasAlways_ofPath _
  rw [Pipeline.start, halways, runSteps_extract h]
  cases s.isNonvalue v <;> rfl

/-- A path whose steps build in the direction of the run is built. -/
theorem runSteps_construct (h : inverted ≠ s.isReverse) (moves : List Move) (v : Value) :
    Pipeline.runSteps (Step.ofMoves inverted moves : Pipeline ω) v s =
      .done (Path.construct s.nonvalues s.context s.target v moves) := by
  by_cases hne : moves = []
  · subst hne
    simp only [Pipeline.runSteps, runParts, stepParts_ofMoves]
    split <;> rfl
  · have hmode : Segment.modeOf s.effective inverted = .construct := by
      simp only [State.isReverse] at h
      simp [Segment.modeOf, h]
    simp only [runSteps_block hne, hmode, runSegments, Segment.run, Segment.filterMap_move?,
      Segment.targetBefore, Task.bind_def, Task.done_bind]

end

section
variable {ns : Nonvalues} {v : Value}

theorem run_forward (hv : ns.contains v = false) (moves : List Move) (w : ω) :
    Pipeline.run (Step.ofMoves false moves) v { nonvalues := ns } w =
      (.ok (Path.extract ns moves v []).1, w) := by
  have hmode : false = State.isReverse (.ofOptions { nonvalues := ns }) := rfl
  rw [Pipeline.run, start_present (s := .ofOptions { nonvalues := ns }) hv, runSteps_extract hmode]
  rfl

theorem run_reverse (hv : ns.contains v = false) (target : Option Value) (moves : List Move)
    (w : ω) :
    Pipeline.run (Step.ofMoves false moves) v { direction := .reverse, nonvalues := ns, target } w =
      (.ok (Path.construct ns [] target v moves), w) := by
  have hmode : false ≠ State.isReverse
      (.ofOptions { direction := .reverse, nonvalues := ns, target }) := Bool.false_ne_true
  have hgate : State.isNonvalue
      (.ofOptions { direction := .reverse, nonvalues := ns, target }) v = false := hv
  rw [Pipeline.run, start_present hgate, runSteps_construct hmode]
  rfl

/-- A nonvalue is not run along a path at all. -/
theorem run_nonvalue {o : Options} (hv : o.nonvalues.contains v = true) (steps : List PathStep)
    (w : ω) : Pipeline.run (Step.ofPath steps) v o w = (.ok .absent, w) := by
  have hgate : State.isNonvalue (.ofOptions o) v = true := hv
  rw [Pipeline.run, Pipeline.start, hgate, hasAlways_ofPath]
  rfl

end

end Reshape
