import Reshape.Proofs.Pipeline.Flow

/-!
# Targets along a pipeline

In a reverse run a path of keys in front of a pipeline is built last, and it leaves the rest of the
pipeline the part of the target below its own keys. So the run splits at the path
(`run_keys_append`), whether or not the path shares a segment with what follows, and whatever the
rest does with its target.
-/

namespace Reshape

variable {ω : Type}

/-- Does a move name a key or a slot? -/
def Move.isKey : Move → Bool
  | field _ | index _ => true
  | _ => false

namespace Path

variable {ns : Nonvalues} {p : List Move}

theorem getLast?_ne_each (hkeys : ∀ m ∈ p, m.isKey) : p.getLast? ≠ some .each := by
  intro h
  simpa [Move.isKey] using hkeys _ (List.mem_of_getLast? h)

/-- Keys are built without a look at the context. -/
theorem construct_context (hkeys : ∀ m ∈ p, m.isKey) (c c' : Context) (target : Option Value)
    (v : Value) : construct ns c target v p = construct ns c' target v p := by
  induction p generalizing target with
  | nil => rfl
  | cons m rest ih =>
    obtain ⟨hm, hrest⟩ := List.forall_mem_cons.1 hkeys
    have hne : m ≠ .each := by rintro rfl; simp [Move.isKey] at hm
    rw [construct_cons _ _ _ hne, construct_cons _ _ _ hne, ih hrest]
    cases m <;> simp [Move.isKey] at hm <;> rfl

theorem constructMove_nonvalue {m : Move} (hm : m.isKey) (c : Context) (afterEach : Bool)
    (target : Option Value) {v : Value} (hv : ns.contains v = true) :
    constructMove ns c afterEach target v m = .absent := by
  cases m <;> simp_all [Move.isKey, constructMove, constructField, constructIndex]

/-- No key is built around a nonvalue. -/
theorem construct_nonvalue (hp : p ≠ []) (hkeys : ∀ m ∈ p, m.isKey) (c : Context)
    (target : Option Value) {v : Value} (hv : ns.contains v = true) :
    construct ns c target v p = .absent := by
  induction p generalizing target with
  | nil => exact absurd rfl hp
  | cons m rest ih =>
    obtain ⟨hm, hrest⟩ := List.forall_mem_cons.1 hkeys
    have hne : m ≠ .each := by rintro rfl; simp [Move.isKey] at hm
    rw [construct_cons _ _ _ hne]
    refine constructMove_nonvalue hm c false target ?_
    by_cases hr : rest = []
    · simpa [hr] using hv
    · rw [ih hr hrest]
      exact ns.contains_absent

end Path

/-! ### Splitting a run -/

section
variable {s : State} {p : List Move}

/-- A reverse run of keys builds them, also around nothing. -/
theorem start_keys (hs : s.effective = .reverse) (hp : p ≠ []) (hkeys : ∀ m ∈ p, m.isKey)
    (v : Value) :
    Pipeline.start (Step.ofMoves false p : Pipeline ω) v s =
      .done (Path.construct s.nonvalues s.context s.target v p) := by
  have hrev : false ≠ s.isReverse := by simp [State.isReverse, hs, Direction.isReverse]
  have halways : Pipeline.hasAlways (Step.ofMoves false p : Pipeline ω) = false :=
    hasAlways_ofPath _
  simp only [Pipeline.start, halways, runSteps_construct hrev]
  split
  · rename_i hv
    rw [Path.construct_nonvalue hp hkeys _ _ (by simpa [State.isNonvalue] using hv)]
  · rfl

/-- How a run goes on when the keys `p` are built last. -/
def buildKeys (s : State) (p : List Move) : Option (Value × Context) →
    Task ω (Option (Value × Context))
  | some (v, c) => .done (some (Path.construct s.nonvalues c s.target v p, c))
  | none => .done none

theorem flow_keys (s : State) (p : List Move) (segments : List (Segment (Action ω))) (v : Value)
    (c : Context) :
    flow s (segments ++ [.path .construct (p.map (.move · false))]) v c =
      (flow (s.withTarget (s.target.bind (Path.navigate · p))) segments v c).bind
        (buildKeys s p) := by
  simp only [flow_append, Segment.targetBefore, Segment.handOn, Segment.filterMap_move?]
  refine Task.bind_congr fun out => ?_
  rcases out with _ | ⟨v, c⟩
  · rfl
  · simp only [flow_singleton, Segment.run, Segment.filterMap_move?, buildKeys]

/-- The keys and the building steps right behind them are one segment, whose target the keys
narrow. -/
theorem flow_keys_fused (s : State) (hkeys : ∀ m ∈ p, m.isKey) (steps : List PathStep)
    (segments : List (Segment (Action ω))) (v : Value) (c : Context) :
    flow s (segments ++ [.path .construct (p.map (.move · false) ++ steps)]) v c =
      (flow (s.withTarget (s.target.bind (Path.navigate · p)))
        (segments ++ [.path .construct steps]) v c).bind (buildKeys s p) := by
  have hnav (moves : List Move) : s.target.bind (Path.navigate · (p ++ moves)) =
      (s.target.bind (Path.navigate · p)).bind (Path.navigate · moves) := by
    cases s.target <;> simp [Path.navigate_append]
  simp only [flow_append, Segment.targetBefore, Segment.handOn, List.filterMap_append,
    Segment.filterMap_move?, hnav, Task.bind_assoc]
  refine Task.bind_congr fun out => ?_
  rcases out with _ | ⟨v, c⟩
  · rfl
  · simp only [flow_singleton, Segment.run, List.filterMap_append, Segment.filterMap_move?,
      Path.construct_append _ _ _ (Path.getLast?_ne_each hkeys), Task.done_bind, buildKeys,
      State.withTarget]

/-- What follows the keys runs with the target below them, and the keys are built around its
result. -/
theorem flow_consBlock_keys (s : State) (hkeys : ∀ m ∈ p, m.isKey)
    (segments : List (Segment (Action ω))) (v : Value) (c : Context) :
    flow s (Segment.consBlock .construct (p.map (.move · false)) segments).reverse v c =
      (flow (s.withTarget (s.target.bind (Path.navigate · p))) segments.reverse v c).bind
        (buildKeys s p) := by
  rcases segments with _ | ⟨⟨mode, steps⟩ | blocks | act, rest⟩
  · exact flow_keys s p [] v c
  · cases mode with
    | extract =>
      simp only [Segment.consBlock, reduceCtorEq, if_false]
      rw [List.reverse_cons, flow_keys]
    | construct =>
      simp only [Segment.consBlock, if_true, List.reverse_cons, flow_keys_fused s hkeys]
  · simp only [Segment.consBlock]
    rw [List.reverse_cons, flow_keys]
  · simp only [Segment.consBlock]
    rw [List.reverse_cons, flow_keys]

/-- A reverse run of keys in front of a pipeline, step for step. -/
theorem start_keys_append (hs : s.effective = .reverse) (hp : p ≠ []) (hkeys : ∀ m ∈ p, m.isKey)
    (q : Pipeline ω) (v : Value) :
    Pipeline.start (Step.ofMoves false p ++ q) v s =
      (q.start v (s.withTarget (s.target.bind (Path.navigate · p)))).bind fun x =>
        Pipeline.start (Step.ofMoves false p) x s := by
  have halways : Pipeline.hasAlways (Step.ofMoves false p ++ q) = q.hasAlways := by
    have hpath : stepsHaveAlways (Step.ofMoves false p : Pipeline ω) = false := hasAlways_ofPath _
    simp only [Pipeline.hasAlways, stepsHaveAlways_append, hpath, Bool.false_or]
  have habsent : Pipeline.start (Step.ofMoves false p : Pipeline ω) .absent s = .done .absent := by
    rw [start_keys hs hp hkeys, Path.construct_nonvalue hp hkeys _ _ s.nonvalues.contains_absent]
  rw [Pipeline.start, halways, Pipeline.start]
  by_cases hgate : s.isNonvalue v && !q.hasAlways
  · have hgate' : (s.withTarget (s.target.bind (Path.navigate · p))).isNonvalue v &&
        !q.hasAlways := hgate
    rw [if_pos hgate, if_pos hgate', Task.done_bind, habsent]
  · have hgate' : ¬((s.withTarget (s.target.bind (Path.navigate · p))).isNonvalue v &&
        !q.hasAlways) := hgate
    have hs' : (s.withTarget (s.target.bind (Path.navigate · p))).effective = .reverse := hs
    have hmode : Segment.modeOf .reverse false = .construct := rfl
    rw [if_neg hgate, if_neg hgate', runSteps_of_reverse hs, runSteps_of_reverse hs',
      stepParts_append, stepParts_ofMoves, Segment.ofParts_moves _ _ hp, hmode,
      runSegments_eq_flow, runSegments_eq_flow, flow_consBlock_keys s hkeys, Task.map_bind,
      Task.bind_map]
    refine Task.bind_congr fun out => ?_
    rcases out with _ | ⟨x, c⟩
    · exact habsent.symm
    · simp only [buildKeys, Task.map_done, Option.map_some, Option.getD_some,
        start_keys hs hp hkeys, Path.construct_context hkeys c s.context]

end

/-- The options of a run below the keys `p`: the target is the part that they lead to. -/
def Options.below (o : Options) (p : List Move) : Options :=
  { o with target := o.target.bind (Path.navigate · p) }

/-- A reverse run splits at keys in front of a pipeline: the rest runs first, on the part of the
target below the keys, and its result is built into the keys, on top of the whole target. Where the
rest fails, so does the run. -/
theorem run_keys_append {p : List Move} (hp : p ≠ []) (hkeys : ∀ m ∈ p, m.isKey) (q : Pipeline ω)
    (v : Value) (o : Options) (ho : o.direction.flippedBy o.flip = .reverse) (w : ω) :
    (Pipeline.run (Step.ofMoves false p ++ q) v o w =
      match q.run v (o.below p) w with
      | (.ok x, w) => Pipeline.run (Step.ofMoves false p) x o w
      | (.error e, w) => (.error e, w)) ∧
    Pipeline.runAsync (Step.ofMoves false p ++ q) v o w =
      match q.runAsync v (o.below p) w with
      | (.ok x, w) => Pipeline.runAsync (Step.ofMoves false p) x o w
      | (.error e, w) => (.error e, w) := by
  have hsplit := start_keys_append (s := .ofOptions o) ho hp hkeys q v
  have hbelow : (State.ofOptions o).withTarget ((State.ofOptions o).target.bind
      (Path.navigate · p)) = .ofOptions (o.below p) := rfl
  rw [hbelow] at hsplit
  constructor
  · rw [Pipeline.run, hsplit, Task.runSync_bind, Pipeline.run]
    rcases (q.start v (.ofOptions (o.below p))).runSync w with ⟨_ | _, _⟩ <;> rfl
  · rw [Pipeline.runAsync, hsplit, Task.complete_bind, Pipeline.runAsync]
    rcases (q.start v (.ofOptions (o.below p))).complete w with ⟨_ | _, _⟩ <;> rfl

theorem run_keys_append_constant :
    Pipeline.run (Step.ofMoves false [.field "user"] ++
        (Step.ofMoves false [.field "name"] ++ [.constant (.str "Ada")] : Pipeline Unit)) .null
        { direction := .reverse, target :=
          some (.map [("user", .map [("age", .str "36")]), ("id", .str "7")]) } () =
      (.ok (.map [("user", .map [("age", .str "36"), ("name", .str "Ada")]), ("id", .str "7")]),
        ()) := by
  rw [(run_keys_append (by simp) (by simp [Move.isKey]) _ _ _ rfl ()).1]
  rfl

end Reshape
