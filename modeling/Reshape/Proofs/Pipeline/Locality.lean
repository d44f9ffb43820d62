import Reshape.Proofs.Pipeline.Seams
import Reshape.Proofs.Shape.Absorb

/-!
# Runs that do not look at the context

A pipeline is local if it has no way to see where it is run: no step in it climbs to a parent or to
the root, merges with its surroundings or looks something up, and its calls do not look at the state
(`Step.IsLocal`). A merge that closes a field is no such step, since the shape carries it out on its
own map. Everything that a local pipeline runs comes to the same whatever the context is
(`ignoresContext_runShape`): the values along a path do not depend on the context, only the context
at its end does, and nothing asks for that.
-/

namespace Reshape

variable {ω : Type}

/-! ### Local pipelines -/

/-- A move that neither goes up the context nor merges. -/
def Move.IsLocal : Move → Prop
  | .field _ | .index _ | .each => True
  | .parent | .root | .merge _ => False

def PathStep.IsLocal : PathStep → Prop
  | .move m _ => m.IsLocal
  | .barrier _ => True

/-- A call that comes to the same in all states. -/
def Call.IgnoresState (c : Call ω) : Prop :=
  ∀ v s s', c.transform.call v s = c.transform.call v s'

mutual

def Step.IsLocal : Step ω → Prop
  | .path p => p.IsLocal
  | .shape sh => shapeIsLocal sh
  | .op o _ => opIsLocal o

def shapeIsLocal : Shape (Step ω) → Prop
  | ⟨fields, _, _, _, _, _⟩ => fieldsAreLocal fields

def fieldsAreLocal : List (Field (Step ω)) → Prop
  | [] => True
  | ⟨_, steps, _⟩ :: rest => fieldStepsAreLocal steps ∧ fieldsAreLocal rest

/-- The last step of a field may be a merge. -/
def fieldStepsAreLocal : List (Step ω) → Prop
  | [] => True
  | [s] => s.IsLocal ∨ s.mergePreference.isSome = true
  | s :: t :: rest => s.IsLocal ∧ fieldStepsAreLocal (t :: rest)

def opIsLocal : Op ω (Step ω) → Prop
  | .transform call | .filter call => call.IgnoresState
  | .value _ _ => True
  | .alt ps | .concat ps => pipelinesAreLocal ps
  | .apply _ steps => stepsAreLocal steps
  | .lookup _ _ => False

def pipelinesAreLocal : List (List (Step ω)) → Prop
  | [] => True
  | p :: rest => stepsAreLocal p ∧ pipelinesAreLocal rest

def stepsAreLocal : List (Step ω) → Prop
  | [] => True
  | s :: rest => s.IsLocal ∧ stepsAreLocal rest

end

/-! ### Paths -/

namespace Path

variable {ns : Nonvalues} {moves : List Move}

/-- Reading along local moves passes through the same values in every context. -/
theorem extract_context (h : ∀ m ∈ moves, m.IsLocal) (v : Value) (c c' : Context) :
    (extract ns moves v c).1 = (extract ns moves v c').1 := by
  have hfold (r r' : Reading) (hvalue : r.value = r'.value) (hmissing : r.missing = r'.missing) :
      (moves.foldl (Reading.step ns) r).value = (moves.foldl (Reading.step ns) r').value := by
    induction moves generalizing r r' with
    | nil => exact hvalue
    | cons m rest ih =>
      obtain ⟨hm, hrest⟩ := List.forall_mem_cons.1 h
      refine ih hrest _ _ ?_ ?_
      all_goals
        cases m with
        | field | index | each =>
          simp only [Reading.step, Reading.descend, hvalue, hmissing]
        | parent | root | merge => exact hm.elim
  exact hfold _ _ rfl rfl

/-- Local moves are built without a look at the context. -/
theorem construct_local (h : ∀ m ∈ moves, m.IsLocal) (c c' : Context) (target : Option Value)
    (v : Value) : construct ns c target v moves = construct ns c' target v moves := by
  have hbelow (before : List Move) :
      constructBelow ns c target v before moves = constructBelow ns c' target v before moves := by
    induction moves generalizing before with
    | nil => rfl
    | cons m rest ih =>
      obtain ⟨hm, hrest⟩ := List.forall_mem_cons.1 h
      simp only [constructBelow, ih hrest]
      cases m with
      | field | index | each => rfl
      | parent | root | merge => exact hm.elim
  exact hbelow []

theorem local_moves {steps : List PathStep} (h : ∀ p ∈ steps, p.IsLocal) :
    ∀ m ∈ steps.filterMap PathStep.move?, m.IsLocal := by
  intro m hm
  obtain ⟨step, hstep, hmove⟩ := List.mem_filterMap.1 hm
  cases step with
  | move m' inverted =>
    obtain rfl := Option.some.inj hmove
    exact h _ hstep
  | barrier => cases hmove

end Path

/-! ### Segments -/

/-- What runs on a value in a state comes to the same in all contexts. -/
def IgnoresContext {α : Type} (f : Value → State → Task ω α) : Prop :=
  ∀ v s c, f v (s.withContext c) = f v s

/-- A local path step, or an action that ignores the context. -/
def Part.IsLocal : Part (Action ω) → Prop
  | .inl p => p.IsLocal
  | .inr act => IgnoresContext act

/-- The value behind a segment, or nothing if the run ends there. -/
def Segment.value (seg : Segment (Action ω)) : Action ω := fun v s =>
  (seg.run v s).map (Option.map Prod.fst)

/-- The context of a segment shows in nothing but the context behind it. -/
theorem ignoresContext_value {seg : Segment (Action ω)} (h : ∀ x ∈ seg.parts, Part.IsLocal x) :
    IgnoresContext seg.value := by
  intro v s c
  cases seg with
  | path mode steps =>
    have hmoves := Path.local_moves fun p hp => h (.inl p) (List.mem_map_of_mem hp)
    cases mode with
    | extract => exact congrArg (Task.done ∘ some) (Path.extract_context hmoves v c s.context)
    | construct =>
      exact congrArg (Task.done ∘ some) (Path.construct_local hmoves c s.context s.target v)
  | barrier blocks =>
    have heffective : (s.withContext c).effective = s.effective := rfl
    simp only [Segment.value, Segment.run, heffective]
    split <;> rfl
  | other act =>
    simp only [Segment.value, Segment.run, Task.map_map, Option.map_map,
      h (.inr act) List.mem_cons_self v s c]
    rfl

theorem runSegments_context {segments : List (Segment (Action ω))}
    (h : ∀ seg ∈ segments, ∀ x ∈ seg.parts, Part.IsLocal x) (s : State) (v : Value)
    (c c' : Context) : runSegments s segments v c = runSegments s segments v c' := by
  induction segments generalizing v c c' with
  | nil => rfl
  | cons seg rest ih =>
    obtain ⟨hseg, hrest⟩ := List.forall_mem_cons.1 h
    let here := s.withTarget (Segment.targetBefore s.target rest)
    -- The rest of the run needs the value only, since it is the same in all contexts.
    have hvalue (c : Context) : runSegments s (seg :: rest) v c =
        (seg.value v (here.withContext c)).bind fun out =>
          out.elim (.done .absent) fun u => runSegments s rest u [] := by
      rw [runSegments, Task.bind_def, Segment.value, Task.map_bind]
      refine Task.bind_congr fun out => ?_
      rcases out with _ | ⟨u, d⟩
      · rfl
      · exact ih hrest u d []
    rw [hvalue, hvalue, ignoresContext_value hseg v here c, ignoresContext_value hseg v here c']

theorem ignoresContext_parts {ps : List (Part (Action ω))} (h : ∀ x ∈ ps, Part.IsLocal x) :
    IgnoresContext (runParts ps) := by
  intro v s c
  have hsegments : ∀ seg ∈ Segment.ofParts s.effective ps, ∀ x ∈ seg.parts, Part.IsLocal x := by
    intro seg hseg x hx
    refine h x ?_
    rw [← Segment.parts_ofParts s.effective ps]
    exact List.mem_flatMap.2 ⟨seg, hseg, hx⟩
  have horder : ∀ seg ∈ (if s.isReverse then (Segment.ofParts s.effective ps).reverse
      else Segment.ofParts s.effective ps), ∀ x ∈ seg.parts, Part.IsLocal x := by
    split
    · exact fun seg hseg => hsegments seg (List.mem_reverse.1 hseg)
    · exact hsegments
  exact (runSegments_withContext s c _ v c).trans (runSegments_context horder s v c s.context)

/-! ### Shapes -/

theorem ignoresContext_assemble {bs : List (Branch ω)} (h : ∀ b ∈ bs, IgnoresContext b.run) :
    IgnoresContext (assemble bs) := by
  intro v s c
  have hgather : gather bs v (s.withContext c) = gather bs v s := by
    refine congrArg Task.joinAll (List.map_congr_left fun b hb => ?_)
    exact h b (List.mem_filter.1 hb).1 v (s.withTarget none) c
  rw [assemble_eq, assemble_eq, hgather]
  rfl

theorem ignoresContext_shape {bs : List (Branch ω)} (h : ∀ b ∈ bs, IgnoresContext b.run)
    (sh : Shape (Step ω)) : IgnoresContext (sh.run bs) := by
  intro v s c
  have hvalue (u : Value) :
      assemble bs u (sh.enter (s.withContext c)) = assemble bs u (sh.enter s) :=
    ignoresContext_assemble h u (sh.enter s) c
  have hitem (items : List Value) (u : Value) (target : Option Value) :
      assemble bs u (((sh.enter (s.withContext c)).pushContext (.seq items)).withTarget target) =
        assemble bs u (((sh.enter s).pushContext (.seq items)).withTarget target) :=
    ignoresContext_assemble h u (((sh.enter s).pushContext (.seq items)).withTarget target)
      (c.push (.seq items))
  simp only [Shape.run, hvalue, hitem]
  rfl

/-! ### Operations -/

section
variable {r : Runner ω}

theorem ignoresContext_onItems (h : IgnoresContext r) : IgnoresContext r.onItems := by
  intro v s c
  cases v with
  | seq items =>
    have hitem (u : Value) :
        r u ((s.withContext c).pushContext (.seq items)) = r u (s.pushContext (.seq items)) :=
      h u (s.pushContext (.seq items)) (c.push (.seq items))
    simp only [Runner.onItems, hitem]
    rfl
  | _ => exact h _ s c

theorem ignoresContext_perItem (h : IgnoresContext r) (iterate : Bool) :
    IgnoresContext (runOp.perItem iterate r) := by
  cases iterate with
  | false => exact h
  | true => exact ignoresContext_onItems h

theorem ignoresContext_guard (flags : Flags) (h : IgnoresContext r) :
    IgnoresContext (flags.guard r) := by
  intro v s c
  simp only [Flags.guard, h v s c]
  rfl

end

theorem Call.IgnoresState.ignoresContext {call : Call ω} (h : call.IgnoresState) :
    IgnoresContext call.transform.call :=
  fun v s c => h v (s.withContext c) s

theorem ignoresContext_filter {call : Call ω} (h : call.IgnoresState) :
    IgnoresContext (Op.runFilter call) := by
  intro v s c
  have hkeep (items : List Value) :
      Op.keepItems call (s.withContext c) items = Op.keepItems call s items := by
    induction items with
    | nil => rfl
    | cons item rest ih =>
      simp only [Op.keepItems, ih, h.ignoresContext item s c]
      rfl
  cases v with
  | seq items => exact congrArg (Task.map Value.seq) (hkeep items)
  | _ => exact congrArg (Task.map _) (h.ignoresContext _ s c)

section
variable {rs : List (Runner ω)}

theorem ignoresContext_alt (h : ∀ r ∈ rs, IgnoresContext r) : IgnoresContext (Op.runAlt rs) := by
  intro v s c
  induction rs with
  | nil => rfl
  | cons r rest ih =>
    obtain ⟨hr, hrest⟩ := List.forall_mem_cons.1 h
    simp only [Op.runAlt, hr v s c, ih hrest]
    rfl

theorem ignoresContext_concat (h : ∀ r ∈ rs, IgnoresContext r) :
    IgnoresContext (Op.runConcat rs) := by
  intro v s c
  have hjoin : Op.joinItems rs v (s.withContext c) = Op.joinItems rs v s := by
    induction rs with
    | nil => rfl
    | cons r rest ih =>
      obtain ⟨hr, hrest⟩ := List.forall_mem_cons.1 h
      simp only [Op.joinItems, hr v s c, ih hrest]
      rfl
  have hsplit (acc u : Value) :
      Op.splitItems rs acc u (s.withContext c) = Op.splitItems rs acc u s := by
    clear hjoin
    induction rs generalizing acc u with
    | nil => rfl
    | cons r rest ih =>
      obtain ⟨hr, hrest⟩ := List.forall_mem_cons.1 h
      simp only [Op.splitItems, hr u s c, ih hrest]
  simp only [Op.runConcat, hjoin, hsplit]
  rfl

end

/-! ### Pipelines -/

mutual

theorem Step.part_isLocal : ∀ {s : Step ω}, s.IsLocal → Part.IsLocal s.part
  | .path _, h => h
  | .shape _, h => fun v s c => congrArg (Task.map some) (ignoresContext_runShape h v s c)
  | .op _ flags, h => ignoresContext_guard flags (ignoresContext_runOp h flags.iterate)

theorem ignoresContext_runShape : ∀ {sh : Shape (Step ω)}, shapeIsLocal sh →
    IgnoresContext (runShape sh)
  | ⟨fields, iterate, flip, noDefaults, always, only⟩, h =>
    ignoresContext_shape (ignoresContext_branches h)
      ⟨fields, iterate, flip, noDefaults, always, only⟩

theorem ignoresContext_branches : ∀ {fs : List (Field (Step ω))}, fieldsAreLocal fs →
    ∀ b ∈ branches fs, IgnoresContext b.run
  | [], _ => by simp [branches]
  | ⟨key, steps, only⟩ :: rest, ⟨hsteps, hrest⟩ =>
    List.forall_mem_cons.2 ⟨ignoresContext_parts (fieldParts_areLocal hsteps),
      ignoresContext_branches hrest⟩

/-- What a field runs is local. -/
theorem fieldParts_areLocal : ∀ {steps : List (Step ω)}, fieldStepsAreLocal steps →
    ∀ x ∈ (if (steps.getLast?.bind Step.mergePreference).isSome then (stepParts steps).dropLast
      else stepParts steps), Part.IsLocal x
  | [], _ => by simp [stepParts]
  | [s], h => by
    cases hmerge : s.mergePreference with
    | some prefer => simp [stepParts, hmerge]
    | none =>
      have hlocal : Part.IsLocal s.part := Step.part_isLocal (h.resolve_right (by simp [hmerge]))
      simpa [stepParts, hmerge] using hlocal
  | s :: t :: rest, ⟨hs, hrest⟩ => by
    rw [List.getLast?_cons_cons, stepParts, stepParts, List.dropLast_cons_cons,
      ← apply_ite (List.cons s.part)]
    exact List.forall_mem_cons.2 ⟨Step.part_isLocal hs, fieldParts_areLocal hrest⟩

theorem ignoresContext_runOp : ∀ {o : Op ω (Step ω)}, opIsLocal o →
    ∀ iterate, IgnoresContext (runOp iterate o)
  | .transform _, h, iterate => ignoresContext_perItem h.ignoresContext iterate
  | .filter _, h, _ => ignoresContext_filter h
  | .value _ _, _, iterate => ignoresContext_perItem (fun _ _ _ => rfl) iterate
  | .alt _, h, iterate =>
    ignoresContext_perItem (ignoresContext_alt (ignoresContext_runners h)) iterate
  | .apply _ _, h, iterate =>
    ignoresContext_perItem (ignoresContext_parts (stepParts_areLocal h)) iterate
  | .concat _, h, iterate =>
    ignoresContext_perItem (ignoresContext_concat (ignoresContext_runners h)) iterate

theorem ignoresContext_runners : ∀ {ps : List (List (Step ω))}, pipelinesAreLocal ps →
    ∀ r ∈ runners ps, IgnoresContext r
  | [], _ => by simp [runners]
  | _ :: _, ⟨hp, hrest⟩ => List.forall_mem_cons.2
    ⟨ignoresContext_parts (stepParts_areLocal hp), ignoresContext_runners hrest⟩

theorem stepParts_areLocal : ∀ {p : List (Step ω)}, stepsAreLocal p →
    ∀ x ∈ stepParts p, Part.IsLocal x
  | [], _ => by simp [stepParts]
  | _ :: _, ⟨hs, hrest⟩ =>
    List.forall_mem_cons.2 ⟨Step.part_isLocal hs, stepParts_areLocal hrest⟩

end

end Reshape
