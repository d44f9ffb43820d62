import Mathlib.Data.List.SplitBy
import Reshape.Proofs.Pipeline.Seams

/-!
# Paths turned round

A path is turned round by inverting every step and reversing the order of its blocks
(`Path.mirror`). What the path does in one direction, the path turned round does in the other
(`run_mirror`): a block makes one segment in either direction, with the same moves, and the two runs
take the segments in the same order.
-/

namespace Reshape

variable {ω : Type}

namespace Path

/-- The maximal runs of adjacent steps with one inversion flag; a barrier stands alone. -/
def blocks (p : List PathStep) : List (List PathStep) :=
  p.splitBy PathStep.joins

/-- The path with every step inverted and the blocks in reverse order, each in its own order. -/
def mirror (p : List PathStep) : List PathStep :=
  ((blocks p).reverse.map (·.map PathStep.invert)).flatten

/-! ### Blocks -/

/-- No step of one list belongs to a block with a step of the other. -/
def Separate (a b : List PathStep) : Prop :=
  ∀ x ∈ a, ∀ y ∈ b, x.joins y = false

theorem joins_comm (x y : PathStep) : x.joins y = y.joins x := by
  cases x <;> cases y <;> simp [PathStep.joins, Bool.beq_comm]

theorem Separate.symm {a b : List PathStep} (h : Separate a b) : Separate b a :=
  fun y hy x hx => joins_comm x y ▸ h x hx y hy

/-- A block is a barrier, or moves with one inversion flag. -/
theorem block_cases {b : List PathStep} (hne : b ≠ []) (h : b.IsChain (·.joins ·)) :
    (∃ blocks, b = [.barrier blocks]) ∨
      ∃ inverted moves, moves ≠ [] ∧ b = moves.map (.move · inverted) := by
  induction b with
  | nil => exact absurd rfl hne
  | cons x rest ih =>
    cases rest with
    | nil =>
      cases x with
      | move m inverted => exact .inr ⟨inverted, [m], by simp, rfl⟩
      | barrier blocks => exact .inl ⟨blocks, rfl⟩
    | cons y more =>
      obtain ⟨hxy, hrest⟩ := List.isChain_cons_cons.1 h
      obtain ⟨blocks, hy⟩ | ⟨inverted, moves, hmoves, hy⟩ := ih (by simp) hrest
      · obtain ⟨rfl, -⟩ := List.cons.inj hy
        cases x <;> simp [PathStep.joins] at hxy
      · obtain ⟨m, moves, rfl⟩ := List.exists_cons_of_ne_nil hmoves
        rw [hy]
        obtain ⟨rfl, -⟩ := List.cons.inj hy
        cases x with
        | move m' inverted' =>
          obtain rfl : inverted' = inverted := by simpa [PathStep.joins] using hxy
          exact .inr ⟨inverted', m' :: m :: moves, by simp, rfl⟩
        | barrier blocks => simp [PathStep.joins] at hxy

theorem block_of_mem {p b : List PathStep} (h : b ∈ blocks p) :
    (∃ blocks, b = [.barrier blocks]) ∨
      ∃ inverted moves, moves ≠ [] ∧ b = moves.map (.move · inverted) :=
  block_cases (List.ne_nil_of_mem_splitBy h) (List.isChain_of_mem_splitBy h)

/-- All steps of a block join what one of them joins. -/
theorem separate_of_mem {p a b : List PathStep} (ha : a ∈ blocks p) (hb : b ∈ blocks p)
    {x y : PathStep} (hx : x ∈ a) (hy : y ∈ b) (h : x.joins y = false) : Separate a b := by
  obtain ⟨_, rfl⟩ | ⟨i, moves, -, rfl⟩ := block_of_mem ha
  · intro x _ y _
    simp_all [PathStep.joins]
  obtain ⟨_, rfl⟩ | ⟨j, moves', -, rfl⟩ := block_of_mem hb
  · intro x _ y _
    cases x <;> simp_all [PathStep.joins]
  · simp only [List.mem_map] at hx hy
    obtain ⟨m, -, rfl⟩ := hx
    obtain ⟨m', -, rfl⟩ := hy
    intro x hx y hy
    simp only [List.mem_map] at hx hy
    obtain ⟨_, -, rfl⟩ := hx
    obtain ⟨_, -, rfl⟩ := hy
    exact h

theorem isChain_blocks (p : List PathStep) : (blocks p).IsChain Separate := by
  refine List.IsChain.imp_of_mem_imp ?_ (List.isChain_getLast_head_splitBy PathStep.joins p)
  rintro a b ha hb ⟨hne, hne', h⟩
  exact separate_of_mem ha hb (List.getLast_mem hne) (List.head_mem hne') h

end Path

/-! ### Segments of a path turned round -/

namespace Segment

variable {β : Type} {d : Direction}

/-- The segment with its steps inverted. -/
def invert : Segment β → Segment β
  | path mode steps => path mode (steps.map PathStep.invert)
  | barrier blocks => barrier blocks.opposite
  | other b => other b

theorem modeOf_opposite (d : Direction) (inverted : Bool) :
    modeOf d.opposite (!inverted) = modeOf d inverted := by
  cases d <;> cases inverted <;> rfl

theorem map_invert_consPath (mode : Mode) (step : PathStep) (segments : List (Segment β)) :
    (consPath mode step segments).map invert =
      consPath mode step.invert (segments.map invert) := by
  rcases segments with _ | ⟨_ | _ | _, rest⟩
  · rfl
  · simp only [List.map_cons, invert, consPath]
    split <;> rfl
  · rfl
  · rfl

/-- Inverted steps make inverted segments in the opposite direction. -/
theorem ofSteps_map_invert (p : List PathStep) :
    (ofSteps d.opposite (p.map PathStep.invert) : List (Segment β)) =
      (ofSteps d p).map invert := by
  induction p with
  | nil => rfl
  | cons step rest ih =>
    rw [ofSteps, ofSteps] at ih ⊢
    cases step with
    | move m inverted =>
      have hmode := modeOf_opposite d inverted
      simp only [modeOf] at hmode
      simp only [List.map_cons, PathStep.invert, ofParts, map_invert_consPath, hmode, ih]
    | barrier blocks => simp only [List.map_cons, PathStep.invert, ofParts, invert, ih]

/-- Separate lists of steps have their own segments. -/
theorem ofSteps_flatten {bs : List (List PathStep)} (hne : [] ∉ bs)
    (h : bs.IsChain Path.Separate) :
    (ofSteps d bs.flatten : List (Segment β)) = bs.flatMap (ofSteps d) := by
  induction bs with
  | nil => rfl
  | cons b rest ih =>
    have hseam : ∀ x ∈ b.getLast?, ∀ y ∈ rest.flatten.head?, x.joins y = false := by
      intro x hx y hy
      cases rest with
      | nil => simp at hy
      | cons c more =>
        obtain ⟨z, zs, rfl⟩ : ∃ z zs, c = z :: zs :=
          List.exists_cons_of_ne_nil fun e => hne (by simp [e])
        obtain rfl : z = y := by simpa using hy
        exact (List.isChain_cons_cons.1 h).1 x (List.mem_of_getLast? hx) z List.mem_cons_self
    rw [List.flatten_cons, ofSteps_append hseam, List.flatMap_cons,
      ih (fun hmem => hne (List.mem_cons_of_mem _ hmem)) h.tail]

/-- A block makes one segment. -/
theorem ofSteps_block {p b : List PathStep} (h : b ∈ Path.blocks p) :
    ∃ seg : Segment β, ofSteps d b = [seg] := by
  obtain ⟨_, rfl⟩ | ⟨inverted, moves, hmoves, rfl⟩ := Path.block_of_mem h
  · exact ⟨_, rfl⟩
  · exact ⟨_, ofSteps_moves d inverted hmoves⟩

/-- In the opposite direction, a path turned round has the same segments in reverse order, with
inverted steps. -/
theorem ofSteps_mirror (p : List PathStep) :
    (ofSteps d.opposite (Path.mirror p) : List (Segment β)) =
      (ofSteps d p).reverse.map invert := by
  have hne : [] ∉ Path.blocks p := List.nil_notMem_splitBy _ _
  have hchain := Path.isChain_blocks p
  have hturned : (Path.blocks p).reverse.IsChain Path.Separate := by
    rw [List.isChain_reverse]
    exact hchain.imp fun _ _ => Path.Separate.symm
  have hsingle : ∀ b ∈ Path.blocks p, (ofSteps d b : List (Segment β)).reverse = ofSteps d b := by
    intro b hb
    obtain ⟨seg, hseg⟩ := ofSteps_block (β := β) (d := d) hb
    rw [hseg, List.reverse_singleton]
  have hp : (ofSteps d p : List (Segment β)) = (Path.blocks p).flatMap (ofSteps d) := by
    rw [← ofSteps_flatten hne hchain, Path.blocks, List.flatten_splitBy]
  calc (ofSteps d.opposite (Path.mirror p) : List (Segment β))
    _ = (ofSteps d (Path.blocks p).reverse.flatten).map invert := by
      rw [Path.mirror, ← List.map_flatten, ofSteps_map_invert]
    _ = ((Path.blocks p).reverse.flatMap (ofSteps d)).map invert := by
      rw [ofSteps_flatten (by simpa using hne) hturned]
    _ = (ofSteps d p).reverse.map invert := by
      rw [hp, List.reverse_flatMap]
      congr 1
      exact List.flatMap_congr fun b hb => (hsingle b (List.mem_reverse.1 hb)).symm

theorem inOrder_turned (segments : List (Segment β)) :
    inOrder d.opposite (segments.reverse.map invert) = (inOrder d segments).map invert := by
  cases d <;> simp [Direction.opposite]

end Segment

/-! ### Runs -/

/-- The state of a run in the opposite direction. -/
def State.turned (s : State) : State :=
  { s with direction := s.direction.opposite }

theorem State.effective_turned (s : State) : s.turned.effective = s.effective.opposite := by
  rcases s with ⟨_ | _, _ | _⟩ <;> rfl

theorem Segment.filterMap_invert (steps : List PathStep) :
    (steps.map PathStep.invert).filterMap PathStep.move? = steps.filterMap PathStep.move? := by
  rw [List.filterMap_map]
  congr 1
  funext step
  cases step <;> rfl

theorem Segment.targetBefore_map_invert {β : Type} (target : Option Value)
    (segments : List (Segment β)) :
    targetBefore target (segments.map invert) = targetBefore target segments := by
  induction segments with
  | nil => rfl
  | cons seg rest ih =>
    rcases seg with ⟨_ | _, steps⟩ | _ | _ <;>
      simp only [List.map_cons, targetBefore, invert, handOn, filterMap_invert, ih]

/-- An inverted segment does in the opposite direction what the segment does. -/
theorem Segment.run_invert {seg : Segment (Action ω)} (h : seg.isPath = true) (v : Value)
    (s : State) : seg.invert.run v s.turned = seg.run v s := by
  rcases seg with ⟨_ | _, steps⟩ | blocks | act
  · simp only [invert, run, filterMap_invert]
    rfl
  · simp only [invert, run, filterMap_invert]
    rfl
  · have hblocks : blocks.opposite = s.effective.opposite ↔ blocks = s.effective := by
      cases blocks <;> cases s.effective <;> decide
    simp only [invert, run, State.effective_turned, hblocks]
    rfl
  · cases h

theorem flow_turned {segments : List (Segment (Action ω))}
    (h : ∀ seg ∈ segments, seg.isPath = true) (s : State) (v : Value) (c : Context) :
    flow s.turned (segments.map Segment.invert) v c = flow s segments v c := by
  induction segments generalizing v c with
  | nil => rfl
  | cons seg rest ih =>
    obtain ⟨hseg, hrest⟩ := List.forall_mem_cons.1 h
    have hrun := Segment.run_invert hseg v
      { s with context := c, target := Segment.targetBefore s.target rest }
    simp only [List.map_cons, flow, Segment.targetBefore_map_invert]
    refine (congrArg (Task.bind · _) hrun).trans (Task.bind_congr fun out => ?_)
    rcases out with _ | ⟨v, c⟩
    · rfl
    · exact ih hrest v c

theorem start_mirror (p : List PathStep) (v : Value) (s : State) :
    Pipeline.start (Step.ofPath (Path.mirror p) : Pipeline ω) v s.turned =
      Pipeline.start (Step.ofPath p) v s := by
  have hpath : ∀ seg ∈ Segment.inOrder s.effective
      (Segment.ofSteps s.effective p : List (Segment (Action ω))), seg.isPath = true := by
    intro seg hseg
    refine Segment.isPath_ofSteps (d := s.effective) (p := p) ?_
    simp only [Segment.inOrder] at hseg
    split at hseg
    · exact List.mem_reverse.1 hseg
    · exact hseg
  have hruns : Pipeline.runSteps (Step.ofPath (Path.mirror p) : Pipeline ω) v s.turned =
      Pipeline.runSteps (Step.ofPath p) v s := by
    rw [runSteps_ofPath, runSteps_ofPath, State.effective_turned, Segment.ofSteps_mirror,
      Segment.inOrder_turned, flow_turned hpath]
    rfl
  simp only [Pipeline.start, hasAlways_ofPath, hruns]
  rfl

/-- A run along a path is the run in the opposite direction along the path turned round: every step
inverted, and the blocks in reverse order. -/
theorem run_mirror (p : List PathStep) (v : Value) (o : Options) (w : ω) :
    Pipeline.run (Step.ofPath (Path.mirror p)) v { o with direction := o.direction.opposite } w =
        Pipeline.run (Step.ofPath p) v o w ∧
      Pipeline.runAsync (Step.ofPath (Path.mirror p)) v
          { o with direction := o.direction.opposite } w =
        Pipeline.runAsync (Step.ofPath p) v o w := by
  have hstart := start_mirror (ω := ω) p v (.ofOptions o)
  exact ⟨congrArg (Task.runSync · w) hstart, congrArg (Task.complete · w) hstart⟩

example : Path.mirror [.move (.field "a") false, .move .each false, .barrier .forward,
    .move (.field "b") true] =
    [.move (.field "b") false, .barrier .reverse, .move (.field "a") true, .move .each true] := by
  decide

end Reshape
