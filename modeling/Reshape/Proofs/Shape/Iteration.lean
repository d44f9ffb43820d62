import Reshape.Proofs.Pipeline.Locality

/-!
# Iterating shapes

A local shape that iterates is a map over the items of a sequence: each of them comes to what the
same shape without iteration makes of it by itself, on top of the same slot of the target
(`run_iterated`). Inside the iteration the sequence lies on the context, which a run of the item
alone does not have there; a local shape cannot tell.
-/

namespace Reshape

variable {ω : Type}

/-! ### One after the other -/

/-- What `run` makes of each item, in the state in which the items before it leave the host. The
first fault ends it. -/
def inTurn {α β : Type} (run : α → ω → Except Fault β × ω) :
    List α → ω → Except Fault (List β) × ω
  | [], w => (.ok [], w)
  | a :: rest, w =>
    match run a w with
    | (.error e, w) => (.error e, w)
    | (.ok b, w) => (inTurn run rest w).map (Except.map (b :: ·)) id

/-- A way to run tasks that runs one after the other, until one fails. -/
structure Task.Sequential (run : {α : Type} → Task ω α → ω → Except Fault α × ω) : Prop where
  done {α : Type} (a : α) (w : ω) : run (.done a) w = (.ok a, w)
  bind {α β : Type} (t : Task ω α) (f : α → Task ω β) (w : ω) :
    run (t.bind f) w = match run t w with
      | (.ok a, w) => run (f a) w
      | (.error e, w) => (.error e, w)

namespace Task.Sequential

theorem runSync : Sequential (Task.runSync (ω := ω)) :=
  ⟨fun _ _ => rfl, runSync_bind⟩

theorem complete : Sequential (Task.complete (ω := ω)) :=
  ⟨fun _ _ => rfl, complete_bind⟩

variable {run : {α : Type} → Task ω α → ω → Except Fault α × ω} {α β : Type}

theorem map (h : Sequential run) (t : Task ω α) (f : α → β) (w : ω) :
    run (t.map f) w = (run t w).map (Except.map f) id := by
  rw [Task.map, h.bind]
  rcases run t w with ⟨_ | a, w⟩
  · rfl
  · exact h.done (f a) w

theorem forItems (h : Sequential run) (f : α → Task ω β) (as : List α) (w : ω) :
    run (forItems f as) w = inTurn (fun a => run (f a)) as w := by
  induction as generalizing w with
  | nil => exact h.done [] w
  | cons a rest ih =>
    rw [Task.forItems, bind_def, h.bind, inTurn]
    rcases run (f a) w with ⟨e | b, w⟩
    · rfl
    · exact (h.map (Task.forItems f rest) (b :: ·) w).trans (by rw [ih])

end Task.Sequential

/-! ### Items -/

/-- The shape without iteration. -/
def Shape.once {σ : Type} (sh : Shape σ) : Shape σ :=
  { sh with iterate := false }

/-- The slot of a target that is a sequence, if it has that slot. -/
def slotAt (target : Option Value) (i : Nat) : Option Value :=
  ((target.bind Value.items?).getD [])[i]?

/-- In any state, an iterating local shape runs on the items of a sequence like the same shape
without iteration, unless it skips them. -/
theorem runShape_iterated {sh : Shape (Step ω)} (hiterate : sh.iterate = true)
    (honly : sh.only = none) (hlocal : shapeIsLocal sh) (xs : List Value) (s : State) :
    runShape sh (.seq xs) s =
      (Task.forItems (fun a : Value × Nat =>
        if s.isNonvalue a.1 && !sh.always then .done a.1
        else runShape sh.once a.1 (s.withTarget (slotAt s.target a.2))) xs.zipIdx).map .seq := by
  obtain ⟨fields, iterate, flip, noDefaults, always, only⟩ := sh
  obtain rfl : iterate = true := hiterate
  obtain rfl : only = none := honly
  have hbranches : ∀ b ∈ branches fields, IgnoresContext b.run := ignoresContext_branches hlocal
  refine congrArg (fun f => (Task.forItems f xs.zipIdx).map Value.seq) (funext fun a => ?_)
  dsimp only
  split
  · rfl
  · rename_i hruns
    have hsame := ignoresContext_assemble hbranches a.1
      ((Shape.enter ⟨fields, true, flip, noDefaults, always, none⟩ s).withTarget
        (slotAt s.target a.2)) (s.context.push (.seq xs))
    rw [runShape_assemble rfl rfl (Bool.eq_false_iff.2 hruns)]
    exact hsame

/-- What the item of a sequence comes to in an iteration: itself where it is skipped, and otherwise
what `run` gives for the shape without iteration, on top of the same slot of the target. -/
def Shape.runItem (sh : Shape (Step ω))
    (run : Pipeline ω → Value → Options → ω → Except Fault Value × ω) (o : Options)
    (a : Value × Nat) (w : ω) : Except Fault Value × ω :=
  if o.nonvalues.contains a.1 && !sh.always then (.ok a.1, w)
  else run [.shape sh.once] a.1 { o with target := slotAt o.target a.2 } w

section
variable {sh : Shape (Step ω)}

/-- Iteration is a map in whatever way the tasks of the items are run one after the other. -/
theorem start_iterated (hiterate : sh.iterate = true) (honly : sh.only = none)
    (hlocal : shapeIsLocal sh) (xs : List Value) {o : Options} (hns : o.nonvalues.Scalar)
    {run : {α : Type} → Task ω α → ω → Except Fault α × ω} (hrun : Task.Sequential run) (w : ω) :
    run (Pipeline.start [.shape sh] (.seq xs) (.ofOptions o)) w =
      (inTurn (sh.runItem (fun p v o => run (p.start v (.ofOptions o))) o) xs.zipIdx w).map
        (Except.map .seq) id := by
  have hseq : (State.isNonvalue (.ofOptions o) (.seq xs) && !sh.always) = false := by
    rw [State.isNonvalue, State.ofOptions, hns.contains_seq, Bool.false_and]
  rw [start_shape hseq, runShape_iterated hiterate honly hlocal, hrun.map, hrun.forItems]
  refine congrArg (fun item => (inTurn item xs.zipIdx w).map (Except.map Value.seq) id) ?_
  funext a w
  rw [Shape.runItem]
  by_cases hskips : (o.nonvalues.contains a.1 && !sh.always) = true
  · rw [if_pos hskips]
    exact (congrArg (run · w) (if_pos hskips)).trans (hrun.done a.1 w)
  · rw [if_neg hskips]
    refine congrArg (run · w) ((if_neg hskips).trans (Eq.symm ?_))
    exact start_shape (Bool.eq_false_iff.2 hskips)

/-- An iterating local shape without a restriction maps the items of a sequence, one after the
other: a nonvalue to itself, unless the shape runs on nonvalues, and any other item to the outcome
of the shape without iteration, run over the item with the same slot of the target. The first fault
of an item is the fault of the run. -/
theorem run_iterated (hiterate : sh.iterate = true) (honly : sh.only = none)
    (hlocal : shapeIsLocal sh) (xs : List Value) {o : Options} (hns : o.nonvalues.Scalar) (w : ω) :
    Pipeline.run [.shape sh] (.seq xs) o w =
        (inTurn (sh.runItem Pipeline.run o) xs.zipIdx w).map (Except.map .seq) id ∧
      Pipeline.runAsync [.shape sh] (.seq xs) o w =
        (inTurn (sh.runItem Pipeline.runAsync o) xs.zipIdx w).map (Except.map .seq) id :=
  ⟨start_iterated hiterate honly hlocal xs hns .runSync w,
    start_iterated hiterate honly hlocal xs hns .complete w⟩

end

/-- A nonvalue among the items, an item that is a sequence itself, and a target with fewer slots,
under a shape with a transform and a spread field. -/
theorem run_iterated_slots :
    ∃ (sh : Shape (Step Unit)) (xs : List Value) (o : Options),
      sh.iterate = true ∧ sh.only = none ∧ shapeIsLocal sh ∧ o.nonvalues.Scalar ∧
      xs = [.map [("a", .str "x")], .null, .seq [.map [("a", .str "y")]]] ∧
      o.target = some (.seq [.map [("k", .bool true)]]) ∧
      Pipeline.run [.shape sh] (.seq xs) o () =
        (inTurn (sh.runItem Pipeline.run o) xs.zipIdx ()).map (Except.map .seq) id ∧
      (Pipeline.run [.shape sh] (.seq xs) o ()).1 =
        .ok (.seq [.map [("k", .bool true), ("n", .str "x"), ("a", .str "x")], .null,
          .map [("n", .seq [.str "y"])]]) := by
  refine ⟨{ iterate := true, fields := [
      { key := "n", steps := [.path (.move (.field "a") false),
        .op (.transform { name := "same", props := .absent, transform := .pure id }) {},
        .path (.move (.field "n") true)] },
      { key := "+", steps := [.path (.move (.merge .current) true)] }] },
    _, { nonvalues := { added := [.null] }, target := some (.seq [.map [("k", .bool true)]]) },
    rfl, rfl, ?isLocal, by decide, rfl, rfl, (run_iterated rfl rfl ?isLocal _ (by decide) ()).1,
    rfl⟩
  exact ⟨⟨trivial, fun _ _ _ => rfl, .inl trivial⟩, .inr rfl, trivial⟩

end Reshape
