import Reshape.Proofs.Pipeline.Seams

/-!
# Nested alternatives and concatenations

Alternatives that stand among alternatives, as one of them, can be spliced in at their place, and so
can a concatenation inside a concatenation in a forward run (`run_spliced`). The alternatives of a
list are tried until one has a value, so a list of them behind another is what is tried where the
first has none (`runAlt_append`); the items that a concatenation joins are those of its parts, one
after the other (`joinItems_append`), and those of a concatenation among them are rid of nonvalues
already (`filter_joinItems`).
-/

namespace Reshape

variable {ω : Type}

namespace Op

/-! ### Alternatives -/

theorem runAlt_append (rs more : List (Runner ω)) (v : Value) (s : State) :
    runAlt (rs ++ more) v s =
      (runAlt rs v s).bind fun out =>
        if s.isNonvalue out then runAlt more v s else .done out := by
  induction rs with
  | nil =>
    have habsent : s.isNonvalue .absent = true := Nonvalues.contains_absent _
    simp [runAlt, habsent]
  | cons r rest ih =>
    simp only [List.cons_append, runAlt, Task.bind_def, Task.bind_assoc, ih]
    refine Task.bind_congr fun out => ?_
    cases hout : s.isNonvalue out <;> simp [hout]

/-- An alternative that comes to trying others stands for these. -/
theorem runAlt_splice {r : Runner ω} {inner : List (Runner ω)} {v : Value} {s : State}
    (hr : r v s = runAlt inner v s) (before after : List (Runner ω)) :
    runAlt (before ++ r :: after) v s = runAlt (before ++ (inner ++ after)) v s := by
  have htail : runAlt (r :: after) v s = runAlt (inner ++ after) v s := by
    rw [runAlt_append, runAlt, hr]
    rfl
  rw [runAlt_append, htail, ← runAlt_append]

/-! ### Concatenations -/

theorem joinItems_append (rs more : List (Runner ω)) (v : Value) (s : State) :
    joinItems (rs ++ more) v s =
      (joinItems rs v s).bind fun items => (joinItems more v s).map (items ++ ·) := by
  induction rs with
  | nil => exact (Task.bind_done _).symm
  | cons r rest ih =>
    simp only [List.cons_append, joinItems, Task.bind_def, Task.bind_assoc, ih, Task.done_bind]
    refine Task.bind_congr fun out => Task.bind_congr fun items => ?_
    rw [Task.map_bind]
    simp only [Task.map, List.append_assoc]

theorem filter_joinItems (rs : List (Runner ω)) (v : Value) (s : State) :
    (joinItems rs v s).map (·.filter (!s.isNonvalue ·)) = joinItems rs v s := by
  induction rs with
  | nil => rfl
  | cons r rest ih =>
    simp only [joinItems, Task.bind_def, Task.bind_map, Task.map_done, List.filter_append,
      List.filter_filter, Bool.and_self]
    refine Task.bind_congr fun out => ?_
    have hrest := Task.map_bind (·.filter (!s.isNonvalue ·)) (joinItems rest v s) fun more =>
      .done (out.toItems.filter (!s.isNonvalue ·) ++ more)
    rw [ih] at hrest
    exact hrest.symm

/-- A part that comes to joining others stands for these. -/
theorem joinItems_splice {r : Runner ω} {inner : List (Runner ω)} {v : Value} {s : State}
    (hr : r v s = (joinItems inner v s).map .seq) (before after : List (Runner ω)) :
    joinItems (before ++ r :: after) v s = joinItems (before ++ (inner ++ after)) v s := by
  have htail : joinItems (r :: after) v s = joinItems (inner ++ after) v s := by
    rw [joinItems_append, joinItems, hr, ← filter_joinItems inner]
    simp only [Task.bind_def, Task.map_bind, Value.toItems, List.filter_filter, Bool.and_self]
    rfl
  rw [joinItems_append, htail, ← joinItems_append]

end Op

/-! ### Steps -/

section
variable {joint : List (Pipeline ω) → Op ω (Step ω)} {d : Direction}

/-- On whatever is run, the operation comes to the same with the inner pipelines spliced in. -/
theorem runOp_spliced (h : joint = .alt ∨ joint = .concat ∧ d = .forward) {s : State}
    (hs : s.effective = d) {v : Value} (hruns : (s.isNonvalue v && !s.always) = false)
    (before inner after : List (Pipeline ω)) :
    runOp false (joint (before ++ [.op (joint inner) {}] :: after)) v s =
      runOp false (joint (before ++ inner ++ after)) v s := by
  have hinner : Pipeline.runSteps [.op (joint inner) {}] v s = runOp false (joint inner) v s := by
    rw [runSteps_op, hruns, if_neg Bool.false_ne_true]
  obtain rfl | ⟨rfl, rfl⟩ := h
  · have hnested : Pipeline.runSteps [.op (.alt inner) {}] v s =
        Op.runAlt (inner.map Pipeline.runSteps) v s := by
      rw [hinner, ← runners_eq_map]
      rfl
    have hsplice := Op.runAlt_splice hnested (before.map Pipeline.runSteps)
      (after.map Pipeline.runSteps)
    simpa [runOp, runOp.perItem, runners_eq_map] using hsplice
  · have hforward : s.isReverse = false := by simp [State.isReverse, hs, Direction.isReverse]
    have hnested : Pipeline.runSteps [.op (.concat inner) {}] v s =
        (Op.joinItems (inner.map Pipeline.runSteps) v s).map .seq := by
      rw [hinner, ← runners_eq_map]
      simp only [runOp, runOp.perItem, Bool.false_eq_true, if_false, Op.runConcat, hforward]
    have hsplice := Op.joinItems_splice hnested (before.map Pipeline.runSteps)
      (after.map Pipeline.runSteps)
    simpa [runOp, runOp.perItem, runners_eq_map, Op.runConcat, hforward] using
      congrArg (Task.map Value.seq) hsplice

/-- The inner operation passes over a nonvalue exactly where the outer one does. -/
theorem runSteps_spliced (h : joint = .alt ∨ joint = .concat ∧ d = .forward) {s : State}
    (hs : s.effective = d) (front back : Pipeline ω) (before inner after : List (Pipeline ω))
    (v : Value) :
    Pipeline.runSteps (front ++ .op (joint (before ++ [.op (joint inner) {}] :: after)) {} :: back)
        v s =
      Pipeline.runSteps (front ++ .op (joint (before ++ inner ++ after)) {} :: back) v s := by
  have hparts (op : Op ω (Step ω)) : stepParts (front ++ .op op {} :: back) =
      stepParts front ++ .inr (Flags.guard {} (runOp false op)) :: stepParts back := by
    rw [stepParts_append, stepParts, Step.part]
  rw [Pipeline.runSteps, Pipeline.runSteps, hparts, hparts]
  refine runParts_replace (fun v t ht => ?_) _ _ v
  simp only [Flags.guard, Direction.admits, Bool.not_true, Bool.false_eq_true, if_false]
  cases hruns : t.isNonvalue v && !t.always with
  | true => rfl
  | false => rw [runOp_spliced h (ht.trans hs) hruns]

theorem pipelinesHaveAlways_append (ps qs : List (Pipeline ω)) :
    pipelinesHaveAlways (ps ++ qs) = (pipelinesHaveAlways ps || pipelinesHaveAlways qs) := by
  induction ps with
  | nil => rfl
  | cons p rest ih => simp only [List.cons_append, pipelinesHaveAlways, ih, Bool.or_assoc]

theorem hasAlways_spliced (h : joint = .alt ∨ joint = .concat ∧ d = .forward)
    (front back : Pipeline ω) (before inner after : List (Pipeline ω)) :
    Pipeline.hasAlways
        (front ++ .op (joint (before ++ [.op (joint inner) {}] :: after)) {} :: back) =
      Pipeline.hasAlways (front ++ .op (joint (before ++ inner ++ after)) {} :: back) := by
  have hjoint (ps : List (Pipeline ω)) : opHasAlways (joint ps) = pipelinesHaveAlways ps := by
    obtain rfl | ⟨rfl, -⟩ := h <;> rfl
  simp only [Pipeline.hasAlways, stepsHaveAlways_append, stepsHaveAlways, Step.hasAlways, hjoint,
    pipelinesHaveAlways_append, pipelinesHaveAlways, Bool.or_false, Bool.or_assoc]

/-- Among any other steps, alternatives in which one is nothing but alternatives itself run as they
do with the inner ones in its place, and so does a concatenation in forward runs. Inside a pipeline
this is so in every state, whatever its target and context, and also where the state lets operations
run on nonvalues. -/
theorem run_spliced (h : joint = .alt ∨ joint = .concat ∧ d = .forward) (front back : Pipeline ω)
    (before inner after : List (Pipeline ω)) (v : Value) :
    let nested := front ++ .op (joint (before ++ [.op (joint inner) {}] :: after)) {} :: back
    let flat := front ++ .op (joint (before ++ inner ++ after)) {} :: back
    (∀ s : State, s.effective = d → nested.runSteps v s = flat.runSteps v s) ∧
      ∀ (o : Options) (w : ω), o.direction.flippedBy o.flip = d →
        nested.run v o w = flat.run v o w ∧ nested.runAsync v o w = flat.runAsync v o w := by
  intro nested flat
  have hsteps (s : State) (hs : s.effective = d) : nested.runSteps v s = flat.runSteps v s :=
    runSteps_spliced h hs front back before inner after v
  refine ⟨hsteps, fun o w ho => ?_⟩
  have halways : nested.hasAlways = flat.hasAlways :=
    hasAlways_spliced h front back before inner after
  have hstart : nested.start v (.ofOptions o) = flat.start v (.ofOptions o) := by
    rw [Pipeline.start, Pipeline.start, halways, hsteps (.ofOptions o) ho]
  exact ⟨congrArg (Task.runSync · w) hstart, congrArg (Task.complete · w) hstart⟩

end

/-- Where the inner alternatives have no value the outer ones go on, and a failure among them is the
failure of the run. Inner items that are null are dropped with the outer ones. -/
theorem run_spliced_fallback :
    let key (name : String) : Pipeline Unit := Step.ofMoves false [.field name]
    let failing : Pipeline Unit :=
      [.op (.transform ⟨"fail", .absent, .sync fun _ _ w => (.error (.transform "fail" "boom"), w)⟩)
        {}]
    let nested (inner : List (Pipeline Unit)) : Pipeline Unit :=
      key "p" ++ .op (.alt ([key "a"] ++ [.op (.alt inner) {}] :: [key "d"])) {} ::
        Step.ofMoves true [.field "k"]
    let flat (inner : List (Pipeline Unit)) : Pipeline Unit :=
      key "p" ++ .op (.alt ([key "a"] ++ inner ++ [key "d"])) {} :: Step.ofMoves true [.field "k"]
    let joined : Pipeline Unit :=
      [] ++ .op (.concat ([key "a"] ++ [.op (.concat [key "b", key "c"]) {}] :: [key "d"])) {} :: []
    let o : Options := { target := some (.map [("o", .int 2)]), nonvalues := ⟨[.null]⟩ }
    let v : Value := .map [("p", .map [("b", .null), ("d", .int 4)])]
    let w : Value := .map [("a", .seq [.int 1]), ("b", .seq [.null, .int 2]), ("d", .int 3)]
    (nested [key "b", key "c"]).run v o () = (flat [key "b", key "c"]).run v o () ∧
      (nested [key "b", key "c"]).run v o () = (.ok (.map [("o", .int 2), ("k", .int 4)]), ()) ∧
      (nested [key "b", failing]).run v o () = (flat [key "b", failing]).run v o () ∧
      (nested [key "b", failing]).run v o () = (.error (.transform "fail" "boom"), ()) ∧
      joined.run w o () =
        Pipeline.run [.op (.concat [key "a", key "b", key "c", key "d"]) {}] w o () ∧
      joined.run w o () = (.ok (.seq [.int 1, .int 2, .int 3]), ()) := by
  intro key failing nested flat joined o v w
  have halt (inner : List (Pipeline Unit)) := (run_spliced (d := .forward) (.inl rfl) (key "p")
    (Step.ofMoves true [.field "k"]) [key "a"] inner [key "d"] v).2 o () rfl
  have hconcat := (run_spliced (.inr ⟨rfl, rfl⟩) [] [] [key "a"] [key "b", key "c"] [key "d"]
    w).2 o () rfl
  have hvalue : (flat [key "b", key "c"]).run v o () =
      (.ok (.map [("o", .int 2), ("k", .int 4)]), ()) := rfl
  have hfault : (flat [key "b", failing]).run v o () =
      (.error (.transform "fail" "boom"), ()) := rfl
  have hjoined : Pipeline.run [.op (.concat [key "a", key "b", key "c", key "d"]) {}] w o () =
      (.ok (.seq [.int 1, .int 2, .int 3]), ()) := rfl
  exact ⟨(halt _).1, (halt _).1.trans hvalue, (halt _).1, (halt _).1.trans hfault, hconcat.1,
    hconcat.1.trans hjoined⟩

end Reshape
