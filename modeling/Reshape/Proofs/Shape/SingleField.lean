import Reshape.Proofs.Shape.Settings

/-!
# Shapes with a single field

A field computes its value and then sets it on its key: the forward run of a shape with one field is
that of the definition under the key, with the key around its result (`run_single_field`). It does
so as long as nothing is built at the end of the definition. Inverted names there are one block with
the key, which is built from the back, so the key ends up below them (`run_single_field_inverted`).
-/

namespace Reshape

variable {ω : Type}

/-! ### Compiling -/

/-- A plain key, with a definition under it. -/
def Setting.named {voc : Vocabulary ω} {key name : String} (hkey : Path.Spells key name) {d : Json}
    {p : Pipeline ω} (hd : compile voc d = .ok p) : Setting voc where
  key := key
  names := [name]
  definition := d
  steps := p
  isDollarKey_key := hkey.isDollarKey_eq
  names?_key := hkey.names?_eq
  names_ne_nil := List.cons_ne_nil name []
  compiles := hd

/-- A shape with one plain key has one field. -/
theorem Definition.compile_single {voc : Vocabulary ω} {d : Json} {p : Pipeline ω}
    (hd : compile voc d = .ok p) {key name : String} (hkey : Path.Spells key name) :
    compile voc (.obj [(key, d)]) = .ok [.shape { fields := [Field.setting key p [name]] }] :=
  compile_settings [.named hkey hd]

/-! ### Running -/

section
variable {s : State} {p : Pipeline ω} {key names : List String} {v : Value} {t : Task ω Value}

/-- A shape with one field puts what the field sets into an empty map. -/
theorem assemble_single (ht : s.target = none) (hns : s.nonvalues.Scalar) (hnames : names ≠ [])
    (hrun : Pipeline.runSteps (p ++ Step.ofMoves true (key.map .field)) v s =
      t.map (Value.set s.nonvalues names)) :
    assemble [Branch.setting p key] v s = t.map (Value.wrap s.nonvalues names) := by
  have hassemble : assemble ([()].map fun _ => Branch.setting p key) v s =
      (Task.joinAll ([()].map fun _ => t)).map fun results =>
        Value.mergeAll (List.zipWith (fun _ => Value.wrap s.nonvalues names) [()] results) :=
    assemble_settings ht hns (fun _ _ => hnames) fun _ _ => hrun
  rw [List.map_singleton, List.map_singleton, Task.joinAll_singleton, Task.map_map] at hassemble
  refine hassemble.trans (Task.bind_congr fun x => congrArg Task.done ?_)
  exact Value.empty_deepMerge_wrap s.nonvalues hnames x

theorem start_single (ht : s.target = none) (hns : s.nonvalues.Scalar)
    (hv : s.isNonvalue v = false) (text : String) (hkey : key ≠ []) (hnames : names ≠ [])
    (hrun : Pipeline.runSteps (p ++ Step.ofMoves true (key.map .field)) v s =
      t.map (Value.set s.nonvalues names)) :
    Pipeline.start [.shape { fields := [Field.setting text p key] }] v s =
      t.map (Value.wrap s.nonvalues names) := by
  rw [start_present hv, runSteps_shape, runShape_value _ (.inl rfl), hv,
    if_neg Bool.false_ne_true, branches_setting _ _ hkey]
  exact assemble_single ht hns hnames hrun

end

/-- What one pipeline makes of the result of another, in both kinds of run. -/
theorem runs_of_start {p q : Pipeline ω} {v : Value} {o : Options} {f : Value → Value}
    (hv : o.nonvalues.contains v = false)
    (h : q.start v (.ofOptions o) = (p.runSteps v (.ofOptions o)).map f) (w : ω) :
    q.run v o w = ((p.run v o w).1.map f, (p.run v o w).2) ∧
      q.runAsync v o w = ((p.runAsync v o w).1.map f, (p.runAsync v o w).2) := by
  have hp : p.start v (.ofOptions o) = p.runSteps v (.ofOptions o) :=
    start_present (s := .ofOptions o) hv p
  simp only [Pipeline.run, Pipeline.runAsync, h, hp, Task.runSync_map, Task.complete_map, and_self]

section
variable {voc : Vocabulary ω} {d : Json} {key name : String}

/-- The forward run of a shape with one field makes, of what the definition under the key makes, the
map with one entry, or an empty map if that is a nonvalue. -/
theorem run_single_field {p : Pipeline ω} (hd : compile voc d = .ok p) (hp : p.EndsUnbuilt)
    (hkey : Path.Spells key name) :
    ∃ shape : Pipeline ω, compile voc (.obj [(key, d)]) = .ok shape ∧
      ∀ o : Options, o.direction.flippedBy o.flip = .forward → o.target = none →
        o.nonvalues.Scalar → ∀ v, o.nonvalues.contains v = false → ∀ w,
        let put := fun x => if o.nonvalues.contains x then .map [] else .map [(name, x)]
        shape.run v o w = ((p.run v o w).1.map put, (p.run v o w).2) ∧
        shape.runAsync v o w = ((p.runAsync v o w).1.map put, (p.runAsync v o w).2) := by
  refine ⟨_, Definition.compile_single hd hkey, fun o hs ht hns v hv w => ?_⟩
  have hname : [name] ≠ [] := List.cons_ne_nil name []
  have hput : Value.wrap o.nonvalues [name] =
      fun x => if o.nonvalues.contains x then .map [] else .map [(name, x)] :=
    funext (Value.wrap_name o.nonvalues name)
  have hrun := runSteps_key_forward (s := .ofOptions o) hs ht hns hname hp v
  have hstart := start_single (s := .ofOptions o) ht hns hv key hname hname hrun
  exact runs_of_start hv (hstart.trans (congrArg (Task.map · _) hput)) w

theorem run_single_field_town :
    ∃ p shape : Pipeline Unit,
      compile {} (.arr [.str "at.town", .str ">^"]) = .ok p ∧
      compile {} (.obj [(" town", .arr [.str "at.town", .str ">^"])]) = .ok shape ∧
      p.run (.map [("at", .map [("town", .str "Ulm")])]) { nonvalues := { added := [.null] } } () =
        (.ok (.str "Ulm"), ()) ∧
      shape.run (.map [("at", .map [("town", .str "Ulm")])])
          { nonvalues := { added := [.null] } } () =
        (.ok (.map [("town", .str "Ulm")]), ()) := by
  have hd : compile {} (.arr [.str "at.town", .str ">^"]) =
      .ok (Step.ofMoves false (["at", "town"].map .field) ++ Step.ofMoves true [.parent] :
        Pipeline Unit) := rfl
  have hp : Pipeline.EndsUnbuilt (Step.ofMoves false (["at", "town"].map .field) ++
      Step.ofMoves true [.parent] : Pipeline Unit) :=
    ⟨_, _, rfl, endsOutside_names _, by simp⟩
  have hkey : Path.Spells " town" "town" := ⟨by decide, by decide, by simp [isPathSyntax]⟩
  obtain ⟨shape, hshape, hruns⟩ := run_single_field hd hp hkey
  refine ⟨_, shape, hd, hshape, rfl, ?_⟩
  exact (hruns { nonvalues := { added := [.null] } } rfl rfl (by decide)
    (.map [("at", .map [("town", .str "Ulm")])]) (by decide) ()).1

/-- Behind inverted names the key is set below them, not around what they build. -/
theorem run_single_field_inverted {front : Pipeline ω} {names : List String}
    (hd : compile voc d = .ok (front ++ Step.ofMoves true (names.map .field)))
    (hfront : front.EndsUnbuilt) (hkey : Path.Spells key name) :
    ∃ shape : Pipeline ω, compile voc (.obj [(key, d)]) = .ok shape ∧
      ∀ o : Options, o.direction.flippedBy o.flip = .forward → o.target = none →
        o.nonvalues.Scalar → ∀ v, o.nonvalues.contains v = false → ∀ w,
        let put := Value.wrap o.nonvalues (names ++ [name])
        shape.run v o w = ((front.run v o w).1.map put, (front.run v o w).2) ∧
        shape.runAsync v o w = ((front.runAsync v o w).1.map put, (front.runAsync v o w).2) := by
  refine ⟨_, Definition.compile_single hd hkey, fun o hs ht hns v hv w => ?_⟩
  have hnames : names ++ [name] ≠ [] := by simp
  have hfused : front ++ Step.ofMoves true (names.map .field) ++
      Step.ofMoves true ([name].map .field) =
      front ++ Step.ofMoves true ((names ++ [name]).map .field) := by
    simp [Step.ofMoves, Step.ofPath]
  have hrun := runSteps_key_forward (s := .ofOptions o) hs ht hns hnames hfront v
  rw [← hfused] at hrun
  have hstart := start_single (s := .ofOptions o) ht hns hv key (List.cons_ne_nil name []) hnames
    hrun
  exact runs_of_start hv hstart w

/-- The key behind an inverted name is set below it. -/
theorem run_single_field_below :
    ∃ p shape : Pipeline Unit,
      compile {} (.str ">a") = .ok p ∧ compile {} (.obj [("k", .str ">a")]) = .ok shape ∧
      p.run (.str "x") {} () = (.ok (.map [("a", .str "x")]), ()) ∧
      shape.run (.str "x") {} () = (.ok (.map [("a", .map [("k", .str "x")])]), ()) ∧
      shape.run (.str "x") {} () ≠ (.ok (.map [("k", .map [("a", .str "x")])]), ()) := by
  have hshape : compile {} (.obj [("k", .str ">a")]) =
      .ok [.shape { fields := [Field.setting "k"
        (Step.ofMoves true [.field "a"] : Pipeline Unit) ["k"]] }] := rfl
  refine ⟨_, _, rfl, hshape, rfl, rfl, ?_⟩
  change ((.ok (.map [("a", .map [("k", .str "x")])]), ()) : Except Fault Value × Unit) ≠ _
  simp

end

end Reshape
