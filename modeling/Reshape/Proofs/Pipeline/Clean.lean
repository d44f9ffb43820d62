import Reshape.Proofs.Pipeline.Suspension

/-!
# Absent entries

No run makes a map that binds a key to absence, where its input, its target, its constants and what
its calls answer have no such map (`run_clean`). So no key is lost when what the run comes to is
written as JSON, and no call is shown such a map: not as the value, nor in the target, nor on the
context. The same goes for every hereditary property of values (`start_keeps`).
-/

namespace Reshape

variable {ω : Type} {p : Pipeline ω}

/-! ### Properties that runs keep -/

section
variable {P : Value → Prop}

/-- A call whose results satisfy `P` where everything that it is shown does, or a source of values
that do. -/
def Ingredient.Keeps (P : Value → Prop) : Ingredient ω → Prop
  | call c => ∀ v s, P v → s.Satisfies P →
    (c.transform.call v s).Ends (Task.Outcome P fun _ => True)
  | source (.constant v) _ => P v
  | source (.generator _ next) _ => ∀ w, P (next w).1
  | shape _ => True

/-- Two calls that come to the same wherever everything that they are shown satisfies `P`. -/
def Call.AgreesOn (P : Value → Prop) (c c' : Call ω) : Prop :=
  ∀ v s, P v → s.Satisfies P → c.transform.call v s = c'.transform.call v s

theorem Ingredient.Keeps.runValue (hP : Value.Hereditary P) {source : Source ω} {fixed : Bool}
    (h : (Ingredient.source source fixed).Keeps P) (v : Value) (s : State) :
    (Op.runValue source fixed v s).Ends (Task.Outcome P fun _ => True) := by
  rw [Op.runValue]
  split
  · exact hP.absent
  · cases source with
    | constant c => exact h
    | generator identity next => exact h

/-- A hereditary property that holds of the input and that the ingredients keep holds of whatever a
run comes to, and calls are shown nothing else: it makes no difference what they would do. -/
theorem start_keeps (hP : Value.Hereditary P) (hp : ∀ i ∈ p.ingredients, i.Keeps P)
    {f : Call ω → Call ω} (hf : ∀ c, .call c ∈ p.ingredients → c.AgreesOn P (f c)) {v : Value}
    (hv : P v) {s : State} (hs : s.Satisfies P) :
    p.start v s = (p.rewire { call := f }).start v s ∧
      (p.start v s).Ends (Task.Outcome P fun _ => True) := by
  have hruns : (TaskRelation.failing fun _ => True).tasks P (p.start v s)
      ((p.rewire { call := f }).start v s) :=
    Simulation.within_start (.failing fun _ => True) hP
      (fun c hc v s hv hs => ⟨hf c hc v s hv hs, hp _ hc v s hv hs⟩)
      (fun source fixed hsource _ v s => ⟨rfl, (hp _ hsource).runValue hP v s⟩) hv hs
  exact hruns

end

/-! ### Clean values -/

namespace Value

/-- No map in the value binds a key to absence. A sequence may have holes. -/
def Clean (v : Value) : Prop :=
  v.Everywhere fun es => ∀ b ∈ es, b.2.isAbsent = false

instance (v : Value) : Decidable v.Clean :=
  inferInstanceAs (Decidable (v.Everywhere _))

theorem hereditary_clean : Hereditary Clean := by
  refine hereditary_everywhere (by simp) fun es hes v hv key b hb => ?_
  rcases Entries.mem_insert hb with rfl | hb
  · exact hv
  · exact hes b hb

/-- Converting entries none of which is absent drops none of them. -/
theorem toEntriesJson_of_present {es : Entries Value} (h : ∀ b ∈ es, b.2.isAbsent = false) :
    toEntriesJson es = es.mapValues toJson := by
  induction es with
  | nil => rfl
  | cons b rest ih =>
    obtain ⟨k, v⟩ := b
    obtain ⟨hv, hrest⟩ := List.forall_mem_cons.1 h
    simp only [toEntriesJson, hv]
    exact congrArg ((k, v.toJson) :: ·) (ih hrest)

theorem Clean.toJson_map {v : Value} (h : v.Clean) :
    v.Everywhere fun es => (map es).toJson = .obj (es.mapValues toJson) :=
  h.mono fun _ hes => congrArg Json.obj (toEntriesJson_of_present hes)

end Value

/-- Where the input, the target, all constants and all generated values are clean, and calls answer
clean values to clean ones, every result is clean: converted to JSON, each map in it keeps all its
keys. Calls are shown clean values only, in the target and on the context as well, since others that
differ from them in what they do with a value that is not clean do not make the run any
different. -/
theorem run_clean (hp : ∀ i ∈ p.ingredients, i.Keeps Value.Clean) {v : Value} (hv : v.Clean)
    {o : Options} (ho : ∀ t ∈ o.target, t.Clean) (w : ω) :
    (∀ out, (p.run v o w).1 = .ok out ∨ (p.runAsync v o w).1 = .ok out →
      out.Clean ∧ out.Everywhere fun es =>
        (Value.map es).toJson = .obj (es.mapValues Value.toJson)) ∧
    (∀ f : Call ω → Call ω, (∀ c, .call c ∈ p.ingredients → c.AgreesOn Value.Clean (f c)) →
      (p.rewire { call := f }).run v o w = p.run v o w ∧
      (p.rewire { call := f }).runAsync v o w = p.runAsync v o w) := by
  have hs : (State.ofOptions o).Satisfies Value.Clean := ⟨ho, by simp [State.ofOptions]⟩
  refine ⟨fun out hout => ?_, fun f hf => ?_⟩
  · have hasync : (p.runAsync v o w).1 = .ok out :=
      hout.elim (fun hsync => Task.complete_of_runSync hsync) id
    have hends := (start_keeps Value.hereditary_clean hp (f := id) (fun _ _ _ _ _ _ => rfl) hv
      hs).2.complete w
    rw [Pipeline.runAsync] at hasync
    rw [hasync] at hends
    exact ⟨hends, Value.Clean.toJson_map hends⟩
  · have hstart := (start_keeps Value.hereditary_clean hp hf hv hs).1.symm
    exact ⟨congrArg (Task.runSync · w) hstart, congrArg (Task.complete · w) hstart⟩

/-- A missing key, a hole, a generated value and a lookup that finds nothing, on top of a target;
the calls might as well fail on anything that is not clean. -/
theorem run_clean_missing :
    ∃ (p : Pipeline Bool) (f : Call Bool → Call Bool) (v out : Value) (o : Options),
      (∀ i ∈ p.ingredients, i.Keeps Value.Clean) ∧ v.Clean ∧ (∀ t ∈ o.target, t.Clean) ∧
      (∀ c, .call c ∈ p.ingredients → c.AgreesOn Value.Clean (f c)) ∧
      (∀ c v s, ¬(v.Clean ∧ s.Satisfies Value.Clean) →
        (f c).transform.call v s = .fail (.internal "absent")) ∧
      (p.rewire { call := f }).run v o true = p.run v o true ∧
      v = .map [("x", .seq [.absent, .str "a"])] ∧ o.target = some (.map [("keep", .null)]) ∧
      (p.run v o true).1 = .ok out ∧ out.Clean ∧
      out = .map [("keep", .null), ("x", .seq [.absent, .str "a"]), ("flag", .bool true)] := by
  have hagrees (c : Call Bool) : c.AgreesOn Value.Clean { c with
      transform := .async fun v s =>
        if v.Clean ∧ s.Satisfies Value.Clean then c.transform.call v s
        else .fail (.internal "absent") } :=
    fun v s hv hs => (if_pos ⟨hv, hs⟩).symm
  refine ⟨[.shape { fields := [
      { key := "x", steps := [.path (.move (.field "x") false),
        .op (.transform { name := "same", props := .absent, transform := .pure id }) {},
        .path (.move (.field "x") true)] },
      { key := "y", steps := [.path (.move (.field "y") false),
        .op (.transform { name := "same", props := .absent, transform := .pure id }) {},
        .path (.move (.field "y") true)] },
      { key := "flag", steps := [.op (.value (.generator 0 fun w => (.bool w, !w)) false) {},
        .path (.move (.field "flag") true)] },
      { key := "z", steps := [
        .op (.lookup [.op (.value (.generator 0 fun w => (.bool w, !w)) false) {}]
          [.op (.transform { name := "same", props := .absent, transform := .pure id }) {}]) {},
        .path (.move (.field "z") true)] }] }],
    _, .map [("x", .seq [.absent, .str "a"])],
    .map [("keep", .null), ("x", .seq [.absent, .str "a"]), ("flag", .bool true)],
    { target := some (.map [("keep", .null)]) },
    ?keeps, ?input, ?target, fun c _ => hagrees c, fun c v s h => if_neg h,
    ((run_clean ?keeps ?input ?target true).2 _ fun c _ => hagrees c).1, rfl, rfl, rfl,
    ((run_clean ?keeps ?input ?target true).1 _ (.inl rfl)).1, rfl⟩
  case input => decide
  case target => decide
  intro i hi
  rcases List.mem_cons.1 hi with rfl | hi
  · trivial
  · have hmade : i = .call { name := "same", props := .absent, transform := .pure id } ∨
        i = .source (.generator 0 fun w => (.bool w, !w)) false ∨
        i = .call { name := "same", props := .absent, transform := .pure id } := by
      simpa [fieldsIngredients, stepsIngredients, Step.ingredients, opIngredients] using hi
    rcases hmade with rfl | rfl | rfl
    · exact fun v s hv _ w => hv
    · exact fun w => trivial
    · exact fun v s hv _ w => hv

end Reshape
