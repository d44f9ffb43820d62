import Reshape.Proofs.Pipeline.Congruence
import Reshape.Proofs.Pipeline.Flow

/-!
# The effective direction

A run depends on the direction it is given and on the flip around it only through the effective
direction, unless a call looks at one of the two by itself: a run in the opposite direction with the
opposite flip is the same run (`run_restated`). So the flip of a shape can be put into the options,
and there it turns the run round.
-/

namespace Reshape

variable {ω : Type} {p : Pipeline ω}

/-- The state with the same effective direction, stated by way of the opposite one. -/
def State.restated (s : State) : State :=
  { s with direction := s.direction.opposite, flip := !s.flip }

/-- The options with the same effective direction, stated by way of the opposite one. -/
def Options.restated (o : Options) : Options :=
  { o with direction := o.direction.opposite, flip := !o.flip }

/-- The call learns nothing from the base direction and the flip but the effective direction. -/
def Call.HeedsEffective (c : Call ω) : Prop :=
  ∀ v s, c.transform.call v s.restated = c.transform.call v s

/-- The shape with the opposite flip. -/
def Shape.toggled {σ : Type} (sh : Shape σ) : Shape σ :=
  { sh with flip := !sh.flip }

theorem State.effective_restated (s : State) : s.restated.effective = s.effective := by
  rcases s with ⟨_ | _, _ | _⟩ <;> rfl

theorem Shape.enter_restated {σ : Type} (sh : Shape σ) (s : State) :
    sh.enter s.restated = (sh.enter s).restated := by
  simp [enter, State.restated, Bool.not_bne]

/-- A state and itself, or a state and its restatement. Lookups read in the same state in both. -/
def StateRelation.restating : StateRelation where
  states s s' := s' = s ∨ s' = s.restated
  alike := by
    rintro s _ (rfl | rfl)
    · exact ⟨rfl, rfl, rfl, rfl, rfl⟩
    · exact ⟨s.effective_restated.symm, rfl, rfl, rfl, rfl⟩
  noDefaults := by
    rintro s _ (rfl | rfl) <;> rfl
  move := by
    rintro s _ (rfl | rfl) context target
    · exact .inl rfl
    · exact .inr rfl
  reader := by
    rintro s _ (rfl | rfl) <;> exact .inl rfl

theorem start_restated (hp : ∀ c, .call c ∈ p.ingredients → c.HeedsEffective) (v : Value)
    (s : State) : p.start v s.restated = p.start v s := by
  have hstart : p.start v s = (p.rewire {}).start v s.restated := by
    refine StateRelation.restating.start_eq (fun c hc v s s' hs _ => ?_) (fun sh _ s s' hs => ?_) v
      (.inr rfl)
    · rcases hs with rfl | rfl
      · rfl
      · exact (hp c hc v s).symm
    · rcases hs with rfl | rfl
      · exact .inl rfl
      · exact .inr (sh.enter_restated s)
  rw [hstart, rewire_id]

/-! ### The flip of a shape -/

/-- The opposite flip of a shape shows inside as the opposite flip around it. -/
theorem Shape.enter_toggled {σ : Type} (sh : Shape σ) (s : State) :
    sh.toggled.enter s = sh.enter s.flipped := by
  simp [enter, toggled, State.flipped, Bool.bne_not]

theorem runShape_toggled {sh : Shape (Step ω)} (honly : sh.only = none) (v : Value) (s : State) :
    runShape sh.toggled v s = runShape sh v s.flipped := by
  have henter := sh.enter_toggled s
  obtain ⟨fields, iterate, flip, noDefaults, always, only⟩ := sh
  obtain rfl : only = none := honly
  rw [Shape.toggled] at henter ⊢
  rw [runShape, runShape, Shape.run, Shape.run, henter]
  rfl

theorem start_toggled {sh : Shape (Step ω)} (honly : sh.only = none) (v : Value) (s : State) :
    Pipeline.start [.shape sh.toggled] v s = Pipeline.start [.shape sh] v s.flipped := by
  have halways : Pipeline.hasAlways [Step.shape sh.toggled] = Pipeline.hasAlways [.shape sh] := by
    cases sh
    rfl
  rw [Pipeline.start, Pipeline.start, halways, runSteps_shape, runSteps_shape,
    runShape_toggled honly]
  rfl

/-- Only the effective direction matters. If no call looks at the base direction or at the flip by
itself, then a run in the opposite direction with the opposite flip is the same run. The opposite
flip of a shape that is not restricted to a direction is the opposite flip in the options, whatever
the calls do; so it comes to the opposite direction, if no call looks at the direction or at the
flip by itself. -/
theorem run_restated (v : Value) (o : Options) (w : ω) :
    (∀ p : Pipeline ω, (∀ c, .call c ∈ p.ingredients → c.HeedsEffective) →
      p.run v o.restated w = p.run v o w ∧ p.runAsync v o.restated w = p.runAsync v o w) ∧
    (∀ sh : Shape (Step ω), sh.only = none →
      (Pipeline.run [.shape sh.toggled] v o w =
          Pipeline.run [.shape sh] v { o with flip := !o.flip } w ∧
        Pipeline.runAsync [.shape sh.toggled] v o w =
          Pipeline.runAsync [.shape sh] v { o with flip := !o.flip } w) ∧
      ((∀ c, .call c ∈ Pipeline.ingredients [.shape sh] → c.HeedsEffective) →
        Pipeline.run [.shape sh.toggled] v o w =
            Pipeline.run [.shape sh] v { o with direction := o.direction.opposite } w ∧
          Pipeline.runAsync [.shape sh.toggled] v o w =
            Pipeline.runAsync [.shape sh] v { o with direction := o.direction.opposite } w)) := by
  refine ⟨fun p hp => ?_, fun sh honly => ⟨?_, fun hsh => ?_⟩⟩
  · have hstart := start_restated hp v (.ofOptions o)
    exact ⟨congrArg (Task.runSync · w) hstart, congrArg (Task.complete · w) hstart⟩
  · have hstart := start_toggled honly v (.ofOptions o)
    exact ⟨congrArg (Task.runSync · w) hstart, congrArg (Task.complete · w) hstart⟩
  · have hstart : Pipeline.start [.shape sh.toggled] v (.ofOptions o) =
        Pipeline.start [.shape sh] v
          (.ofOptions { o with direction := o.direction.opposite }) := by
      rw [start_toggled honly, ← start_restated hsh]
      simp [State.restated, State.flipped, State.ofOptions]
    exact ⟨congrArg (Task.runSync · w) hstart, congrArg (Task.complete · w) hstart⟩

/-- Tells whether it runs in reverse. -/
def Call.tell : Call Unit where
  name := "tell"
  props := .absent
  transform := .sync fun _ s w => (.ok (.bool s.isReverse), w)

/-- A shape with a transform that tells the effective direction, by itself and in what a lookup
reads, restated and toggled. -/
theorem run_restated_telling :
    ∃ sh : Shape (Step Unit), sh.only = none ∧
      (∀ c, .call c ∈ Pipeline.ingredients [.shape sh] → c.HeedsEffective) ∧
      Pipeline.run [.shape sh] (.bool false) { direction := .reverse, flip := true } () =
        Pipeline.run [.shape sh] (.bool false) {} () ∧
      (Pipeline.run [.shape sh] (.bool false) {} ()).1 =
        .ok (.map [("way", .bool false), ("found", .bool false)]) ∧
      Pipeline.run [.shape sh.toggled] (.map [("way", .null)]) {} () =
        Pipeline.run [.shape sh] (.map [("way", .null)]) { direction := .reverse } () ∧
      (Pipeline.run [.shape sh.toggled] (.map [("way", .null)]) {} ()).1 = .ok (.bool true) := by
  refine ⟨{ fields := [
      { key := "way", steps := [
        .op (.transform .tell) {}, .path (.move (.field "way") true)] },
      { key := "found", steps := [
        .op (.lookup [.op (.transform .tell) {}] []) {}, .path (.move (.field "found") true)] }] },
    rfl, ?heeds, ((run_restated _ {} ()).1 _ ?heeds).1, rfl,
    (((run_restated _ {} ()).2 _ rfl).2 ?heeds).1, rfl⟩
  intro c hc
  rcases List.mem_cons.1 hc with hshape | hc
  · cases hshape
  · have hcalls : .call c ∈ List.replicate 2 (Ingredient.call .tell) := hc
    cases List.eq_of_mem_replicate hcalls
    intro v s
    simp [Call.tell, Transform.call, State.isReverse, s.effective_restated]

end Reshape
