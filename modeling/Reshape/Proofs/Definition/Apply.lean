import Reshape.Definition.Compile
import Reshape.Proofs.Shape.Compiled

/-!
# Applying a named pipeline

Where an application of a named pipeline compiles, so does the definition behind the name, and to
the same steps (`compile_apply`): with fewer names in reach a definition compiles to the same steps
or to none (`steps_agrees`). The two run alike, but an application gives a nonvalue no run at all
(`run_apply`).
-/

namespace Reshape

variable {ω : Type}

/-- Wherever `x` has a result, `y` has the same. -/
def Agrees {α : Type} (x y : Except Fault α) : Prop :=
  ∀ a, x = .ok a → y = .ok a

namespace Agrees

variable {α β : Type}

theorem refl (x : Except Fault α) : Agrees x x :=
  fun _ h => h

theorem bind {x y : Except Fault α} (h : Agrees x y) {f g : α → Except Fault β}
    (hf : ∀ a, Agrees (f a) (g a)) : Agrees (x >>= f) (y >>= g) := by
  intro b hb
  cases x with
  | error e => cases hb
  | ok a =>
    rw [h a rfl]
    exact hf a b hb

theorem map {x y : Except Fault α} (h : Agrees x y) (f : α → β) : Agrees (f <$> x) (f <$> y) := by
  intro b hb
  cases x with
  | error e => cases hb
  | ok a =>
    rw [h a rfl]
    exact hb

end Agrees

namespace Definition

/-! ### Names in reach -/

section
variable {voc : Vocabulary ω} {named more : String → Except Fault (Pipeline ω)}

mutual

/-- A definition that compiles with some names in reach compiles to the same steps with more. -/
theorem steps_agrees (h : ∀ name, Agrees (named name) (more name)) :
    ∀ j : Json, Agrees (steps voc named j) (steps voc more j)
  | .null | .bool _ | .int _ | .float _ | .str _ => .refl _
  | .arr items => joined_agrees h items
  | .obj es => by
    rw [steps, steps]
    cases marker? es with
    | none => exact (keyedFields_agrees h es).bind fun _ => .refl _
    | some m =>
      cases m with
      | alt | concat => exact ((pipelinesAt_agrees h _ _ es).map _).bind fun _ => .refl _
      | apply =>
        simp only
        split
        · exact ((h _).map _).bind fun _ => .refl _
        · exact .refl _
      | _ => exact .refl _

theorem joined_agrees (h : ∀ name, Agrees (named name) (more name)) :
    ∀ items : List Json, Agrees (joined voc named items) (joined voc more items)
  | [] => .refl _
  | j :: rest => by
    rw [joined, joined]
    exact (steps_agrees h j).bind fun _ => (joined_agrees h rest).bind fun _ => .refl _

theorem pipelines_agrees (h : ∀ name, Agrees (named name) (more name)) :
    ∀ items : List Json, Agrees (pipelines voc named items) (pipelines voc more items)
  | [] => .refl _
  | j :: rest => by
    rw [pipelines, pipelines]
    exact (steps_agrees h j).bind fun _ => (pipelines_agrees h rest).bind fun _ => .refl _

theorem pipelinesAt_agrees (h : ∀ name, Agrees (named name) (more name)) (key : String)
    (e : Except Fault (List (Pipeline ω))) : ∀ es : List (String × Json),
    Agrees ((pipelinesAt voc named key es).getD e) ((pipelinesAt voc more key es).getD e)
  | [] => .refl _
  | (k, .arr items) :: rest => by
    rw [pipelinesAt, pipelinesAt]
    split
    · exact pipelines_agrees h items
    · exact pipelinesAt_agrees h key e rest
  | (k, .null) :: rest | (k, .bool _) :: rest | (k, .int _) :: rest | (k, .float _) :: rest
  | (k, .str _) :: rest | (k, .obj _) :: rest => by
    simp only [pipelinesAt]
    split
    · exact .refl _
    · exact pipelinesAt_agrees h key e rest

theorem keyedFields_agrees (h : ∀ name, Agrees (named name) (more name)) :
    ∀ es : List (String × Json), Agrees (keyedFields voc named es) (keyedFields voc more es)
  | [] => .refl _
  | (key, j) :: rest => by
    rw [keyedFields, keyedFields]
    split
    · exact keyedFields_agrees h rest
    · exact (steps_agrees h j).bind fun _ => (keyedFields_agrees h rest).bind fun _ => .refl _

end

end

section
variable (voc : Vocabulary ω)

theorem namedPipeline_of_get? {closed : Entries Json} {name : String} {d : Json}
    (h : closed.get? name = some d) :
    namedPipeline voc closed name = steps voc (namedPipeline voc (closed.erase name)) d := by
  rw [namedPipeline]
  split
  · rename_i d' hd
    rw [h] at hd
    cases hd
    rfl
  · simp_all

theorem get?_of_namedPipeline {closed : Entries Json} {name : String} {p : Pipeline ω}
    (h : namedPipeline voc closed name = .ok p) : ∃ d, closed.get? name = some d := by
  rw [namedPipeline] at h
  split at h
  · rename_i d hd
    exact ⟨d, hd⟩
  · split at h <;> cases h

/-- The more pipelines are still closed, the more of them can be applied. -/
theorem namedPipeline_agrees {few many : Entries Json}
    (hsub : ∀ name d, few.get? name = some d → many.get? name = some d) (name : String) :
    Agrees (namedPipeline voc few name) (namedPipeline voc many name) := by
  induction hn : few.length using Nat.strongRecOn generalizing few many name with
  | ind n ih =>
    intro p hp
    obtain ⟨d, hd⟩ := get?_of_namedPipeline voc hp
    have hless : (few.erase name).length < n := hn ▸ Entries.length_erase_lt hd
    have herase : ∀ other j, (few.erase name).get? other = some j →
        (many.erase name).get? other = some j := by
      intro other j hj
      by_cases hother : other = name
      · subst hother
        simp at hj
      · rw [Entries.get?_erase_of_ne _ hother] at hj ⊢
        exact hsub other j hj
    rw [namedPipeline_of_get? voc hd] at hp
    rw [namedPipeline_of_get? voc (hsub name d hd)]
    exact steps_agrees (fun other => ih _ hless herase other rfl) d p hp

end

end Definition

/-! ### Compiling an application -/

namespace Definition

/-- An application without flags compiles where the definition behind its name does. -/
theorem compile_apply_eq (voc : Vocabulary ω) (name : String) :
    compile voc (.obj [("$apply", .str name)]) =
      (fun q => [.op (.apply name q) {}]) <$> namedPipeline voc voc.registry.pipelines name := by
  have hmarker : marker? [("$apply", Json.str name)] = some .apply := by rfl
  have hoperand : (Entries.get? [("$apply", Json.str name)] Marker.apply.key).getD .null =
      .str name := by rfl
  have hiterate : flag [("$apply", Json.str name)] "$iterate" = false := by rfl
  have honly : restriction voc [("$apply", Json.str name)] = none := by rfl
  rw [compile, steps]
  simp only [hmarker, hoperand, hiterate, honly]
  cases namedPipeline voc voc.registry.pipelines name <;> rfl

/-- Where an application compiles, the definition compiles to the steps that are applied. -/
theorem compile_apply {voc : Vocabulary ω} {name : String} {d : Json}
    (hd : voc.registry.pipeline name = .ok d) {p : Pipeline ω}
    (hp : compile voc (.obj [("$apply", .str name)]) = .ok p) :
    ∃ q, compile voc d = .ok q ∧ p = [.op (.apply name q) {}] := by
  have hget : voc.registry.pipelines.get? name = some d := by
    simp only [Registry.pipeline] at hd
    split at hd
    · rename_i d' hget
      rw [hget, Except.ok.inj hd]
    · cases hd
  rw [compile_apply_eq, namedPipeline_of_get? voc hget] at hp
  cases hq : steps voc (namedPipeline voc (voc.registry.pipelines.erase name)) d with
  | error e =>
    rw [hq] at hp
    cases hp
  | ok q =>
    rw [hq] at hp
    refine ⟨q, ?_, (Except.ok.inj hp).symm⟩
    -- Inside the pipeline its own name is out of reach, so with the name there is no less.
    refine steps_agrees (fun other => namedPipeline_agrees voc (fun key j hj => ?_) other) d q hq
    by_cases hkey : key = name
    · subst hkey
      simp at hj
    · rwa [Entries.get?_erase_of_ne _ hkey] at hj

end Definition

/-! ### Running it -/

/-- Where the state lets no operation run on nonvalues, an application gives a nonvalue no run. -/
theorem runSteps_apply {s : State} (hs : s.always = false) (name : String) (q : Pipeline ω)
    (v : Value) :
    Pipeline.runSteps [.op (.apply name q) {}] v s =
      if s.isNonvalue v then .done .absent else q.runSteps v s := by
  rw [runSteps_op, hs, Bool.not_false, Bool.and_true]
  rfl

theorem start_apply {s : State} (hs : s.always = false) (name : String) (q : Pipeline ω)
    (v : Value) :
    Pipeline.start [.op (.apply name q) {}] v s =
      if s.isNonvalue v then .done .absent else q.runSteps v s := by
  rw [Pipeline.start, runSteps_apply hs]
  split
  · rename_i hgate
    rw [Bool.and_eq_true] at hgate
    rw [if_pos hgate.1]
  · rfl

/-- An application without flags runs as the definition behind its name does, on every value that is
no nonvalue, and on all values where no shape in the definition runs on nonvalues. On a nonvalue it
yields absence, whatever the definition. -/
theorem run_apply {voc : Vocabulary ω} {name : String} {d : Json}
    (hd : voc.registry.pipeline name = .ok d) {p : Pipeline ω}
    (hp : compile voc (.obj [("$apply", .str name)]) = .ok p) :
    ∃ q, compile voc d = .ok q ∧ ∀ v o w,
      (o.nonvalues.contains v = false ∨ q.hasAlways = false →
        p.run v o w = q.run v o w ∧ p.runAsync v o w = q.runAsync v o w) ∧
      (o.nonvalues.contains v = true →
        p.run v o w = (.ok .absent, w) ∧ p.runAsync v o w = (.ok .absent, w)) := by
  obtain ⟨q, hq, rfl⟩ := Definition.compile_apply hd hp
  refine ⟨q, hq, fun v o w => ⟨fun h => ?_, fun h => ?_⟩⟩
  · have hstart : Pipeline.start [.op (.apply name q) {}] v (.ofOptions o) =
        q.start v (.ofOptions o) := by
      rw [start_apply rfl, Pipeline.start]
      by_cases hv : (State.ofOptions o).isNonvalue v = true
      · have halways : q.hasAlways = false :=
          h.resolve_left fun hfalse => Bool.false_ne_true (hfalse.symm.trans hv)
        simp [hv, halways]
      · simp [hv]
    exact ⟨congrArg (Task.runSync · w) hstart, congrArg (Task.complete · w) hstart⟩
  · have hv : (State.ofOptions o).isNonvalue v = true := h
    have hstart : Pipeline.start [.op (.apply name q) {}] v (.ofOptions o) = .done .absent := by
      rw [start_apply rfl, if_pos hv]
    exact ⟨congrArg (Task.runSync · w) hstart, congrArg (Task.complete · w) hstart⟩

theorem run_apply_user :
    ∃ p q : Pipeline Unit,
      compile { registry := { pipelines := [("user", .obj [("name", .str "username")])] } }
        (.obj [("$apply", .str "user")]) = .ok p ∧
      compile { registry := { pipelines := [("user", .obj [("name", .str "username")])] } }
        (.obj [("name", .str "username")]) = .ok q ∧
      p.run (.map [("username", .str "ann")]) {} () =
        q.run (.map [("username", .str "ann")]) {} () ∧
      p.run .absent {} () = (.ok .absent, ()) := by
  have hp : compile { registry := { pipelines := [("user", .obj [("name", .str "username")])] } }
      (.obj [("$apply", .str "user")]) =
        .ok [.op (.apply "user" [.shape { fields := [Field.setting "name"
          (Step.ofMoves false [.field "username"] : Pipeline Unit) ["name"]] }]) {}] := by
    rw [Definition.compile_apply_eq, Definition.namedPipeline_of_get? _ rfl]
    rfl
  obtain ⟨q, hq, hruns⟩ := run_apply rfl hp
  have hpresent := (hruns (.map [("username", .str "ann")]) {} ()).1 (.inl (by decide))
  have habsent := (hruns .absent {} ()).2 (by decide)
  exact ⟨_, q, hp, hq, hpresent.1, habsent.1⟩

/-- A shape that runs on nonvalues does so by itself, but not where it is applied by name. -/
theorem run_apply_always :
    ∃ p q : Pipeline Unit,
      compile { registry := { pipelines := [("tag",
          .obj [("$alwaysApply", .bool true), ("kind", .obj [("$value", .str "k")])])] } }
        (.obj [("$apply", .str "tag")]) = .ok p ∧
      compile { registry := { pipelines := [("tag",
          .obj [("$alwaysApply", .bool true), ("kind", .obj [("$value", .str "k")])])] } }
        (.obj [("$alwaysApply", .bool true), ("kind", .obj [("$value", .str "k")])]) = .ok q ∧
      p.run .absent {} () = (.ok .absent, ()) ∧
      q.run .absent {} () = (.ok (.map [("kind", .str "k")]), ()) ∧
      p.run .absent {} () ≠ q.run .absent {} () := by
  have hshape : compile { registry := { pipelines := [("tag",
      .obj [("$alwaysApply", .bool true), ("kind", .obj [("$value", .str "k")])])] } }
      (.obj [("$alwaysApply", .bool true), ("kind", .obj [("$value", .str "k")])]) =
        .ok [.shape ⟨[Field.setting "kind" ([.constant (.str "k")] : Pipeline Unit) ["kind"]],
          false, false, false, true, none⟩] := rfl
  refine ⟨[.op (.apply "tag" [.shape ⟨[Field.setting "kind" [.constant (.str "k")] ["kind"]],
    false, false, false, true, none⟩]) {}], _, ?_, hshape, rfl, rfl, ?_⟩
  · rw [Definition.compile_apply_eq, Definition.namedPipeline_of_get? _ rfl]
    rfl
  · change ((.ok .absent, ()) : Except Fault Value × Unit) ≠ (.ok (.map [("kind", .str "k")]), ())
    simp

end Reshape
