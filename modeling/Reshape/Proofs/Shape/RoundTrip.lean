import Reshape.Proofs.Definition.Outline

/-!
# Round trips of shapes

The runs of a compiled shape that has an outline are those of the outline, on every item if the
shape iterates (`compile_runs`). They undo one another as far as they go, whatever the input
(`compile_roundTrip`).
-/

namespace Reshape

variable {ω : Type}

/-! ### Shapes at the top -/

/-- What a run of a shape makes of a value, where `f` is what the fields make of a value or an
item. -/
def Shape.outcome (ns : Nonvalues) (iterate : Bool) (f : Value → Value) (v : Value) : Value :=
  match iterate, v with
  | true, .seq items => .seq (items.map fun item => if ns.contains item then item else f item)
  | _, v => if ns.contains v then .absent else f v

section
variable {ns : Nonvalues} {f g : Value → Value}

theorem Shape.outcome_value {iterate : Bool} {v : Value} (h : iterate = false ∨ v.isSeq = false) :
    Shape.outcome ns iterate f v = if ns.contains v then .absent else f v := by
  rcases h with rfl | h
  · rfl
  · cases v <;> cases iterate <;> simp_all [Shape.outcome, Value.isSeq]

theorem Shape.outcome_isMap (hns : ns.Scalar) (iterate : Bool) {m : Value} (hm : m.isMap = true) :
    Shape.outcome ns iterate f m = f m := by
  have hseq : m.isSeq = false := by
    cases m <;> simp_all [Value.isMap, Value.isSeq]
  rw [Shape.outcome_value (.inr hseq), hns.contains_of_isMap hm, if_neg Bool.false_ne_true]

theorem Value.items_or_single (iterate : Bool) (v : Value) :
    (iterate = true ∧ ∃ items, v = .seq items) ∨ (iterate = false ∨ v.isSeq = false) := by
  cases iterate <;> cases v <;> simp [Value.isSeq]

/-- Functions that undo one another and make maps do so on values and on items. -/
theorem Shape.outcome_roundTrip (hns : ns.Scalar) (iterate : Bool) (hf : ∀ v, (f v).isMap = true)
    (hg : ∀ v, (g v).isMap = true) (h : ∀ v, f (g (f v)) = f v) (v : Value) :
    Shape.outcome ns iterate f (Shape.outcome ns iterate g (Shape.outcome ns iterate f v)) =
      Shape.outcome ns iterate f v := by
  rcases v.items_or_single iterate with ⟨rfl, items, rfl⟩ | hout
  · simp only [Shape.outcome, List.map_map, Value.seq.injEq, List.map_inj_left]
    intro item _
    by_cases hitem : ns.contains item = true
    · simp [hitem]
    · simp [hitem, hns.contains_of_isMap (hf item), hns.contains_of_isMap (hg (f item)), h]
  · by_cases hv : ns.contains v = true
    · have habsent {f : Value → Value} : Shape.outcome ns iterate f .absent = .absent := by
        rw [Shape.outcome_value (.inr rfl), ns.contains_absent, if_pos rfl]
      rw [Shape.outcome_value hout, if_pos hv, habsent, habsent]
    · rw [Shape.outcome_value hout, if_neg hv, Shape.outcome_isMap hns iterate (hf v),
        Shape.outcome_isMap hns iterate (hg _), h]

end

/-- A run of a shape whose fields assemble `f`, without a target. -/
theorem run_shape {fs : List (Field (Step ω))} (hfs : fieldsHaveAlways fs = false)
    (iterate : Bool) {o : Options} (ht : o.target = none) (hns : o.nonvalues.Scalar)
    {f : Value → Value} (hf : ∀ v c, o.nonvalues.contains v = false →
      assemble (branches fs) v ((State.ofOptions o).withContext c) = .done (f v)) (x : Value)
    (w : ω) :
    Pipeline.run [.shape { fields := fs, iterate }] x o w =
      (.ok (Shape.outcome o.nonvalues iterate f x), w) := by
  have halways : Pipeline.hasAlways [.shape { fields := fs, iterate }] = false := by
    simp [Pipeline.hasAlways, stepsHaveAlways, Step.hasAlways, shapeHasAlways, hfs]
  have hgate (v : Value) : (State.ofOptions o).isNonvalue v = o.nonvalues.contains v := rfl
  rw [Pipeline.run, Pipeline.start, halways, runSteps_shape, hgate]
  rcases x.items_or_single iterate with ⟨rfl, items, rfl⟩ | hout
  · have hitems : runShape { fields := fs, iterate := true } (.seq items) (.ofOptions o) =
        .done (Shape.outcome o.nonvalues true f (.seq items)) := by
      refine (runShape_items (f := f) rfl rfl ht fun v hv => ?_).trans ?_
      · rw [Shape.enter_fields]
        exact hf v _ (by simpa [hgate] using hv)
      · simp [Shape.outcome, State.isNonvalue, State.ofOptions]
    rw [hns.contains_seq, hitems]
    rfl
  · rw [Shape.outcome_value hout, runShape_value fs hout, hgate]
    by_cases hx : o.nonvalues.contains x = true
    · simp only [hx, Bool.not_false, Bool.and_self, if_true]
      rfl
    · have hdone : assemble (branches fs) x (.ofOptions o) = .done (f x) :=
        hf x (State.ofOptions o).context (by simpa using hx)
      simp only [hx, hdone, Bool.false_and, Bool.false_eq_true, if_false]
      rfl

/-! ### Definitions that can be run back and forth -/

/-- A shape of plain paths with an outline that can be run back and forth. The outermost shape may
iterate. -/
def Definition.Invertible (d : Json) : Prop :=
  ∃ es fields, d = .obj es ∧ outlineFields? (Entries.erase es "$iterate") = some fields ∧
    Outline.Invertible fields

/-- A definition with an outline is compiled, and its runs are those of the outline. -/
theorem compile_runs {es : Entries Json} {fields : List (List String × Outline)}
    (hfields : Definition.outlineFields? (es.erase "$iterate") = some fields)
    (hproper : Outline.ProperFields fields) (voc : Vocabulary ω) :
    ∃ p : Pipeline ω, compile voc (.obj es) = .ok p ∧ ∀ ns : Nonvalues, ns.Scalar → ∀ x w,
      p.run x { nonvalues := ns } w =
        (.ok (Shape.outcome ns (Definition.flag es "$iterate")
          ((Outline.node fields).forward ns) x), w) ∧
      p.run x { direction := .reverse, nonvalues := ns } w =
        (.ok (Shape.outcome ns (Definition.flag es "$iterate")
          ((Outline.node fields).reverse ns) x), w) := by
  obtain ⟨fs, hfs, hcompiled⟩ := Definition.keyedFields_outline voc
    (Definition.namedPipeline voc voc.registry.pipelines) hfields hproper
  rw [Definition.keyedFields_erase _ _ (by decide)] at hfs
  have hes (key : String) (hkey : isKnownKey key = true) (hne : key ≠ "$iterate") :
      es.get? key = none := by
    rw [← Entries.get?_erase_of_ne es hne]
    exact Definition.get?_known hfields hkey
  refine ⟨_, Definition.steps_obj _ _ hes hfs, fun ns hns x w => ?_⟩
  have hforward (v : Value) (c : Context) (hv : ns.contains v = false) :
      assemble (branches fs) v ((State.ofOptions { nonvalues := ns }).withContext c) =
        .done ((Outline.node fields).forward ns v) := by
    refine assemble_done rfl (hcompiled.contributes_forward rfl rfl hns ?_ hproper)
    exact hv
  have hreverse (v : Value) (c : Context) :
      assemble (branches fs) v
          ((State.ofOptions { direction := .reverse, nonvalues := ns }).withContext c) =
        .done ((Outline.node fields).reverse ns v) :=
    assemble_done rfl (hcompiled.contributes_reverse rfl rfl hns v hproper)
  exact ⟨run_shape hcompiled.hasAlways _ rfl hns hforward x w,
    run_shape hcompiled.hasAlways _ rfl hns (fun v c _ => hreverse v c) x w⟩

/-- The two runs of an invertible shape are functions, neither of which changes what the other one
made of its own results. -/
theorem compile_roundTrip {d : Json} (hd : Definition.Invertible d) (voc : Vocabulary ω) :
    ∃ p : Pipeline ω, compile voc d = .ok p ∧ ∀ ns : Nonvalues, ns.Scalar →
      ∃ forward reverse : Value → Value,
        (∀ x w, p.run x { nonvalues := ns } w = (.ok (forward x), w)) ∧
        (∀ x w, p.run x { direction := .reverse, nonvalues := ns } w = (.ok (reverse x), w)) ∧
        ∀ x, forward (reverse (forward x)) = forward x ∧
          reverse (forward (reverse x)) = reverse x := by
  obtain ⟨es, fields, rfl, hfields, hinv⟩ := hd
  obtain ⟨p, hp, hruns⟩ := compile_runs hfields hinv.proper voc
  refine ⟨p, hp, fun ns hns => ⟨_, _, fun x w => (hruns ns hns x w).1,
    fun x w => (hruns ns hns x w).2, fun x => ?_⟩⟩
  have hforward (v : Value) : ((Outline.node fields).forward ns v).isMap = true :=
    Value.isMap_foldl (Outline.isMap_forwardFields ns hinv.proper v) rfl
  have hreverse (v : Value) : ((Outline.node fields).reverse ns v).isMap = true :=
    Value.isMap_foldl (Outline.isMap_reverseFields ns hinv.proper v) rfl
  exact ⟨Shape.outcome_roundTrip hns _ hforward hreverse
      (Outline.forward_reverse_forward hns hinv) x,
    Shape.outcome_roundTrip hns _ hreverse hforward
      (Outline.reverse_forward_reverse hns hinv) x⟩

theorem compile_roundTrip_nested :
    ∃ p : Pipeline Unit,
      compile {} (.obj [("$iterate", .bool true), ("id", .str "key"),
        ("place", .obj [("town", .str "at.town"), ("zip", .str "at.zip")])]) = .ok p ∧
      ∃ forward reverse : Value → Value,
        (∀ x w, p.run x { nonvalues := { added := [.null] } } w = (.ok (forward x), w)) ∧
        (∀ x w, p.run x { direction := .reverse, nonvalues := { added := [.null] } } w =
          (.ok (reverse x), w)) ∧
        ∀ x, forward (reverse (forward x)) = forward x ∧
          reverse (forward (reverse x)) = reverse x := by
  have hd : Definition.Invertible (.obj [("$iterate", .bool true), ("id", .str "key"),
      ("place", .obj [("town", .str "at.town"), ("zip", .str "at.zip")])]) := by
    refine ⟨_, [(["id"], .leaf ["key"]), (["place"], .node [(["town"], .leaf ["at", "town"]),
      (["zip"], .leaf ["at", "zip"])])], rfl, by rfl, ⟨?_, by decide, by decide⟩⟩
    simp [Outline.ProperFields, Outline.Proper]
  obtain ⟨p, hp, hruns⟩ := compile_roundTrip hd {}
  exact ⟨p, hp, hruns _ (by decide)⟩

end Reshape
