import Reshape.Proofs.Pipeline.Flow

/-!
# Seams

Where two lists of steps meet, their segments stay apart unless the steps on both sides are path
steps in one mode (`ofParts_append`). So the run of moves behind a pipeline comes after the run of
the pipeline (`runSteps_append_build`) or before it (`runSteps_append_read`). A run takes the
segments in the order of its direction (`inOrder`), and stretches of segments that let everything
flow alike can stand for one another in it (`Interchangeable.within`).
-/

namespace Reshape

variable {ω : Type}

/-- Two path steps that belong to one block where they are neighbours: moves with the same inversion
flag. -/
def PathStep.joins : PathStep → PathStep → Bool
  | move _ a, move _ b => a == b
  | _, _ => false

namespace Segment

variable {β : Type} {d : Direction}

/-- The mode of a part in a run with effective direction `d`. -/
def modeAt (d : Direction) : Part β → Option Mode
  | .inl step => step.mode d
  | .inr _ => none

/-- Two parts that share a segment where they are neighbours. -/
def Fuses (d : Direction) (a b : Part β) : Prop :=
  ∃ mode, modeAt d a = some mode ∧ modeAt d b = some mode

theorem modeOf_inj {a b : Bool} : modeOf d a = modeOf d b ↔ a = b := by
  cases d <;> cases a <;> cases b <;> decide

theorem consPath_eq_cons (mode : Mode) (step : PathStep) (segments : List (Segment β)) :
    ∃ steps rest, consPath mode step segments = path mode steps :: rest := by
  rcases segments with _ | ⟨_ | _ | _, rest⟩
  · exact ⟨_, _, rfl⟩
  · simp only [consPath]
    split <;> exact ⟨_, _, rfl⟩
  · exact ⟨_, _, rfl⟩
  · exact ⟨_, _, rfl⟩

/-- A path step in front of a part in another mode is a segment of its own. -/
theorem consPath_ofParts {mode : Mode} {ys : List (Part β)}
    (h : ∀ b ∈ ys.head?, modeAt d b ≠ some mode) (step : PathStep) :
    consPath mode step (ofParts d ys) = path mode [step] :: ofParts d ys := by
  rcases ys with _ | ⟨(⟨m, inverted⟩ | blocks) | b, rest⟩
  · rfl
  · have hmode : modeOf d inverted ≠ mode := fun e => h _ rfl (congrArg some e)
    obtain ⟨steps, more, hcons⟩ :=
      consPath_eq_cons (modeOf d inverted) (.move m inverted) (ofParts d rest)
    rw [ofParts]
    simp only [modeOf] at hcons hmode
    rw [hcons, consPath, if_neg hmode]
  · rfl
  · rfl

theorem consPath_append (mode : Mode) (step : PathStep) {xs : List (Segment β)} (h : xs ≠ [])
    (ys : List (Segment β)) :
    consPath mode step (xs ++ ys) = consPath mode step xs ++ ys := by
  rcases xs with _ | ⟨_ | _ | _, rest⟩
  · exact absurd rfl h
  · simp only [List.cons_append, consPath]
    split <;> rfl
  · rfl
  · rfl

theorem ofParts_ne_nil {ps : List (Part β)} (h : ps ≠ []) : ofParts d ps ≠ [] := by
  intro hnil
  have hparts := parts_ofParts d ps
  rw [hnil] at hparts
  exact h hparts.symm

/-- The segments of two lists in a row, where the parts that meet do not share one. -/
theorem ofParts_append {xs ys : List (Part β)}
    (h : ∀ a ∈ xs.getLast?, ∀ b ∈ ys.head?, ¬Fuses d a b) :
    ofParts d (xs ++ ys) = ofParts d xs ++ ofParts d ys := by
  induction xs with
  | nil => rfl
  | cons x rest ih =>
    cases rest with
    | nil =>
      rcases x with (⟨m, inverted⟩ | blocks) | b
      · exact consPath_ofParts (fun b hb he => h _ rfl b hb ⟨_, rfl, he⟩) _
      · rfl
      · rfl
    | cons y more =>
      have hne : ofParts d (y :: more) ≠ [] := ofParts_ne_nil (by simp)
      have ih := ih fun a ha => h a (by simpa using ha)
      rcases x with (⟨m, inverted⟩ | blocks) | b
      · simp only [List.cons_append, ofParts] at ih hne ⊢
        rw [ih, consPath_append _ _ hne]
      · simp only [List.cons_append, ofParts] at ih ⊢
        rw [ih]
      · simp only [List.cons_append, ofParts] at ih ⊢
        rw [ih]

/-- What is no path step is a segment of its own. -/
theorem ofParts_other (d : Direction) (xs : List (Part β)) (b : β) (ys : List (Part β)) :
    ofParts d (xs ++ .inr b :: ys) = ofParts d xs ++ [.other b] ++ ofParts d ys := by
  have hseam : ∀ a ∈ xs.getLast?, ∀ b' ∈ (Sum.inr b :: ys).head?, ¬Fuses d a b' := by
    rintro a - b' hb' ⟨mode, -, hmode⟩
    cases hb'
    cases hmode
  rw [ofParts_append hseam, List.append_assoc]
  rfl

/-- The segments of a path. -/
def ofSteps (d : Direction) (p : List PathStep) : List (Segment β) :=
  ofParts d (p.map .inl)

/-- Moves with one inversion flag make one segment. -/
theorem ofSteps_moves (d : Direction) (inverted : Bool) {moves : List Move} (h : moves ≠ []) :
    (ofSteps d (moves.map (.move · inverted)) : List (Segment β)) =
      [path (modeOf d inverted) (moves.map (.move · inverted))] := by
  rw [ofSteps, List.map_map]
  exact ofParts_block d inverted h

theorem joins_of_fuses {a b : PathStep} (h : Fuses d (.inl a : Part β) (.inl b)) :
    a.joins b = true := by
  obtain ⟨mode, ha, hb⟩ := h
  rcases a with ⟨m, i⟩ | _
  · rcases b with ⟨m', j⟩ | _
    · have hij : modeOf d i = modeOf d j := Option.some.inj (ha.trans hb.symm)
      simpa [PathStep.joins] using modeOf_inj.1 hij
    · cases hb
  · cases ha

theorem ofSteps_append {p q : List PathStep}
    (h : ∀ a ∈ p.getLast?, ∀ b ∈ q.head?, a.joins b = false) :
    (ofSteps d (p ++ q) : List (Segment β)) = ofSteps d p ++ ofSteps d q := by
  rw [ofSteps, List.map_append]
  refine ofParts_append fun a ha b hb hfuses => ?_
  simp only [List.getLast?_map, List.head?_map, Option.mem_def, Option.map_eq_some_iff] at ha hb
  obtain ⟨a, ha, rfl⟩ := ha
  obtain ⟨b, hb, rfl⟩ := hb
  exact Bool.false_ne_true ((h a ha b hb).symm.trans (joins_of_fuses hfuses))

/-- Does a segment consist of path steps? -/
def isPath : Segment β → Bool
  | other _ => false
  | _ => true

theorem isPath_ofSteps {p : List PathStep} {seg : Segment β} (h : seg ∈ ofSteps d p) :
    seg.isPath = true := by
  cases seg with
  | other b =>
    have hmem : (.inr b : Part β) ∈ (ofSteps d p).flatMap parts :=
      List.mem_flatMap.2 ⟨_, h, List.mem_singleton_self _⟩
    rw [ofSteps, parts_ofParts] at hmem
    simp at hmem
  | _ => rfl

/-- The segments in the order in which a run with effective direction `d` takes them. -/
def inOrder (d : Direction) (segments : List (Segment β)) : List (Segment β) :=
  if d.isReverse then segments.reverse else segments

@[simp] theorem inOrder_forward (segments : List (Segment β)) :
    inOrder .forward segments = segments := rfl

@[simp] theorem inOrder_reverse (segments : List (Segment β)) :
    inOrder .reverse segments = segments.reverse := rfl

/-- A segment keeps its place between others, whatever it is. -/
theorem exists_inOrder (d : Direction) (xs ys : List (Segment β)) :
    ∃ before after, ∀ seg, inOrder d (xs ++ [seg] ++ ys) = before ++ [seg] ++ after := by
  cases d with
  | forward => exact ⟨xs, ys, fun _ => rfl⟩
  | reverse => exact ⟨ys.reverse, xs.reverse, fun _ => by simp⟩

end Segment

theorem runSteps_ofPath (p : List PathStep) (v : Value) (s : State) :
    Pipeline.runSteps (Step.ofPath p : Pipeline ω) v s =
      (flow s (Segment.inOrder s.effective (Segment.ofSteps s.effective p)) v s.context).map
        fun out => (out.map Prod.fst).getD .absent := by
  rw [Pipeline.runSteps, stepParts_ofPath]
  exact runSegments_eq_flow ..

/-! ### A block behind a pipeline -/

theorem stepParts_eq_map (p : Pipeline ω) : stepParts p = p.map Step.part := by
  induction p with
  | nil => rfl
  | cons s rest ih => rw [stepParts, List.map_cons, ih]

/-- The last step, if there is one, does not belong to a block with the given inversion flag. -/
def Pipeline.EndsOutside (inverted : Bool) (p : Pipeline ω) : Prop :=
  ∀ m, p.getLast? ≠ some (.path (.move m inverted))

/-- Moves behind a pipeline make a segment of their own. -/
theorem Segment.ofParts_append_moves (d : Direction) {inverted : Bool} {p : Pipeline ω}
    (hp : p.EndsOutside inverted) {moves : List Move} (hne : moves ≠ []) :
    ofParts d (stepParts (p ++ Step.ofMoves inverted moves)) =
      ofParts d (stepParts p) ++ [.path (modeOf d inverted) (moves.map (.move · inverted))] := by
  rw [stepParts_append, stepParts_ofMoves, ofParts_append, ofParts_block d inverted hne]
  intro a ha b hb hfuses
  simp only [stepParts_eq_map, List.getLast?_map, List.head?_map, Option.mem_def,
    Option.map_eq_some_iff] at ha hb
  obtain ⟨step, hstep, rfl⟩ := ha
  obtain ⟨m, -, rfl⟩ := hb
  rcases step with (⟨m', i⟩ | blocks) | sh | ⟨op, flags⟩
  · obtain rfl : i = inverted := by simpa [PathStep.joins] using joins_of_fuses hfuses
    exact hp m' hstep
  all_goals
    obtain ⟨_, hmode, -⟩ := hfuses
    cases hmode

theorem runSegments_withContext (s : State) (context : Context)
    (segments : List (Segment (Action ω))) (v : Value) (c : Context) :
    runSegments (s.withContext context) segments v c = runSegments s segments v c := by
  induction segments generalizing v c with
  | nil => rfl
  | cons seg rest ih =>
    simp only [runSegments, ih]
    rfl

/-- Nothing is built at the end of the pipeline: its last steps, if they are inverted, go up or to
the root, which builds nothing. -/
def Pipeline.EndsUnbuilt (p : Pipeline ω) : Prop :=
  ∃ (front : Pipeline ω) (idle : List Move), p = front ++ Step.ofMoves true idle ∧
    front.EndsOutside true ∧ ∀ m ∈ idle, m = .parent ∨ m = .root

theorem Pipeline.EndsOutside.unbuilt {p : Pipeline ω} (h : p.EndsOutside true) : p.EndsUnbuilt :=
  ⟨p, [], (List.append_nil p).symm, h, by simp⟩

theorem Path.construct_idle {ns : Nonvalues} {idle : List Move}
    (h : ∀ m ∈ idle, m = .parent ∨ m = .root) (c : Context) (v : Value) (moves : List Move) :
    construct ns c none v (idle ++ moves) = construct ns c none v moves := by
  induction idle with
  | nil => rfl
  | cons m rest ih =>
    obtain ⟨hm, hrest⟩ := List.forall_mem_cons.1 h
    rw [List.cons_append, construct_cons _ _ _ (by rcases hm with rfl | rfl <;> simp)]
    rcases hm with rfl | rfl <;> exact ih hrest

section
variable {s : State} {p : Pipeline ω} {moves : List Move}

private theorem runSteps_append_outside (hs : s.effective = .forward) (ht : s.target = none)
    (hp : p.EndsOutside true) {f : Value → Value}
    (hf : ∀ c v, Path.construct s.nonvalues c none v moves = f v) (habsent : f .absent = .absent)
    (v : Value) :
    Pipeline.runSteps (p ++ Step.ofMoves true moves) v s = (p.runSteps v s).map f := by
  by_cases hmoves : moves = []
  · subst hmoves
    obtain rfl : f = id := funext fun v => (hf [] v).symm
    have hempty : p ++ Step.ofMoves true [] = p := List.append_nil p
    rw [hempty]
    exact (Task.bind_done _).symm
  have hbuild : Segment.modeOf .forward true = .construct := rfl
  rw [runSteps_of_forward hs, runSteps_of_forward hs, runSegments_eq_flow, runSegments_eq_flow,
    Segment.ofParts_append_moves _ hp hmoves, flow_append, Task.bind_map, Task.map, Task.map_bind]
  simp only [Segment.targetBefore, Segment.handOn, ht, Option.bind_none, hbuild,
    State.withTarget_eq_self ht]
  refine Task.bind_congr fun out => ?_
  rcases out with _ | ⟨v, c⟩
  · exact congrArg Task.done habsent.symm
  · simp only [flow_singleton, Segment.run, Segment.filterMap_move?, ht, hf, Task.map_done,
      Option.map_some, Option.getD_some]

/-- In a forward run without a target, the moves build on the result of the pipeline. The result
does not show the context, so what they build must not depend on it, and where the pipeline ends the
run they must build nothing. -/
theorem runSteps_append_build (hs : s.effective = .forward) (ht : s.target = none)
    (hp : p.EndsUnbuilt) {f : Value → Value}
    (hf : ∀ c v, Path.construct s.nonvalues c none v moves = f v) (habsent : f .absent = .absent)
    (v : Value) :
    Pipeline.runSteps (p ++ Step.ofMoves true moves) v s = (p.runSteps v s).map f := by
  obtain ⟨front, idle, rfl, hfront, hidle⟩ := hp
  have hmoves : front ++ Step.ofMoves true idle ++ Step.ofMoves true moves =
      front ++ Step.ofMoves true (idle ++ moves) := by simp [Step.ofMoves, Step.ofPath]
  have hfused (c : Context) (v : Value) :
      Path.construct s.nonvalues c none v (idle ++ moves) = f v := by
    rw [Path.construct_idle hidle, hf]
  have hidle (c : Context) (v : Value) : Path.construct s.nonvalues c none v idle = id v := by
    simpa using Path.construct_idle hidle c v []
  rw [hmoves, runSteps_append_outside hs ht hfront hfused habsent,
    runSteps_append_outside hs ht hfront hidle rfl, Task.map_map]
  rfl

/-- In a reverse run the moves are read first. -/
theorem runSteps_append_read (hs : s.effective = .reverse) (hp : p.EndsOutside true)
    (hmoves : moves ≠ []) (v : Value) :
    Pipeline.runSteps (p ++ Step.ofMoves true moves) v s =
      p.runSteps (Path.extract s.nonvalues moves v s.context).1
        (s.withContext (Path.extract s.nonvalues moves v s.context).2) := by
  have hread : Segment.modeOf .reverse true = .extract := rfl
  have hs' : (s.withContext (Path.extract s.nonvalues moves v s.context).2).effective = .reverse :=
    hs
  rw [runSteps_of_reverse hs, runSteps_of_reverse hs', Segment.ofParts_append_moves _ hp hmoves,
    List.reverse_append, List.reverse_singleton, List.singleton_append, hread,
    runSegments_withContext]
  simp only [runSegments, Segment.run, Segment.filterMap_move?, Task.bind_def, Task.done_bind]
  rfl

end

/-! ### Stretches of segments -/

/-- Two stretches of segments that no run with effective direction `d` tells apart. -/
structure Interchangeable (d : Direction) (xs ys : List (Segment (Action ω))) : Prop where
  targetBefore (target : Option Value) :
    Segment.targetBefore target xs = Segment.targetBefore target ys
  flow (s : State) (hs : s.effective = d) (v : Value) (c : Context) :
    Reshape.flow s xs v c = Reshape.flow s ys v c

namespace Interchangeable

variable {d : Direction} {xs ys zs : List (Segment (Action ω))}

theorem refl (d : Direction) (xs : List (Segment (Action ω))) : Interchangeable d xs xs :=
  ⟨fun _ => rfl, fun _ _ _ _ => rfl⟩

theorem trans (h : Interchangeable d xs ys) (h' : Interchangeable d ys zs) :
    Interchangeable d xs zs :=
  ⟨fun t => (h.targetBefore t).trans (h'.targetBefore t),
    fun s hs v c => (h.flow s hs v c).trans (h'.flow s hs v c)⟩

/-- They stay so between other segments. -/
theorem within (h : Interchangeable d xs ys) (before after : List (Segment (Action ω))) :
    Interchangeable d (before ++ xs ++ after) (before ++ ys ++ after) := by
  refine ⟨fun t => ?_, fun s hs v c => ?_⟩
  · simp only [Segment.targetBefore_append, h.targetBefore]
  · have hflow := h.flow (s.withTarget (Segment.targetBefore s.target after)) hs
    simp only [flow_append, h.targetBefore, hflow]

/-- So are two actions that come to the same in every state with that effective direction. -/
theorem action {act act' : Action ω} (h : ∀ v s, s.effective = d → act v s = act' v s) :
    Interchangeable d [.other act] [.other act'] := by
  refine ⟨fun _ => rfl, fun s hs v c => ?_⟩
  have hact : act v { s with context := c } = act' v { s with context := c } := h v _ hs
  rw [flow_singleton, flow_singleton, Segment.run, Segment.run, hact]

/-- A barrier lets everything pass in the direction that it does not block. -/
theorem barrier (d : Direction) :
    Interchangeable d [.barrier d.opposite] ([] : List (Segment (Action ω))) := by
  refine ⟨fun _ => rfl, fun s hs v c => ?_⟩
  rw [flow_singleton, Segment.run]
  have hpass : d.opposite ≠ State.effective { s with context := c } := by
    change d.opposite ≠ s.effective
    rw [hs]
    exact d.opposite_ne_self
  rw [if_neg hpass]
  rfl

end Interchangeable

/-- Actions that come to the same in every state with the effective direction of the run can stand
for one another in it. -/
theorem runParts_replace {s : State} {act act' : Action ω}
    (h : ∀ v t, t.effective = s.effective → act v t = act' v t)
    (front back : List (Part (Action ω))) (v : Value) :
    runParts (front ++ .inr act :: back) v s = runParts (front ++ .inr act' :: back) v s := by
  obtain ⟨before, after, horder⟩ := Segment.exists_inOrder s.effective
    (Segment.ofParts s.effective front) (Segment.ofParts s.effective back)
  have hruns (act : Action ω) : runParts (front ++ .inr act :: back) v s =
      (flow s (before ++ [.other act] ++ after) v s.context).map
        fun out => (out.map Prod.fst).getD .absent := by
    rw [← horder, ← Segment.ofParts_other]
    exact runSegments_eq_flow ..
  rw [hruns, hruns, ((Interchangeable.action h).within before after).flow s rfl]

end Reshape
