import Mathlib.Data.List.Forall2
import Reshape.Proofs.Pipeline.Seams
import Reshape.Proofs.Pipeline.Targets
import Reshape.Proofs.Shape.Outline

/-!
# Compiled outlines

The pipelines that outlines are compiled to (`Compiled`), and their runs without a target. Every
field contributes one map to the result of its shape (`Branch.Contributes`), so a shape assembles
the deep merge of these maps (`assemble_done`). They are the maps of the outline, in a forward run
(`CompiledFields.contributes_forward`) and in a reverse one (`CompiledFields.contributes_reverse`).
-/

namespace Reshape

variable {ω : Type}

/-! ### Paths of names -/

namespace Path

variable {ns : Nonvalues}

theorem extract_names (names : List String) (v : Value) (c : Context) :
    (extract ns (names.map .field) v c).1 = v.readNames names := by
  have hfold (r : Reading) :
      ((names.map .field).foldl (Reading.step ns) r).value = r.value.readNames names := by
    induction names generalizing r with
    | nil => rfl
    | cons name names ih => exact ih _
  exact hfold _

/-- Without a target, names are built as maps with a single entry. -/
theorem construct_names (hns : ns.Scalar) {names : List String} (h : names ≠ []) (c : Context)
    (v : Value) :
    construct ns c none v (names.map .field) = (ns.present v).elim .absent (Value.nest names) := by
  by_cases hv : ns.contains v = true
  · have hkeys : ∀ m ∈ names.map Move.field, m.isKey := by
      intro m hm
      obtain ⟨name, -, rfl⟩ := List.mem_map.1 hm
      rfl
    rw [construct_nonvalue (by simpa using h) hkeys c none hv]
    simp [Nonvalues.present, hv]
  · have hbuilt : construct ns c none v (names.map .field) = v.nest names ∧
        ns.contains (v.nest names) = false := by
      clear h
      induction names with
      | nil => simpa using hv
      | cons name names ih =>
        refine ⟨?_, hns.contains_map _⟩
        rw [List.map_cons, construct_cons _ _ _ (by simp), Option.bind_none, ih.1]
        simp [constructMove, constructField, bindField, ih.2]
    simpa [Nonvalues.present, hv] using hbuilt.1

end Path

/-! ### Runs of fields -/

/-- Moves that are not inverted build nothing in a forward run. -/
theorem endsOutside_moves (moves : List Move) :
    Pipeline.EndsOutside true (Step.ofMoves false moves : Pipeline ω) := by
  intro m h
  obtain ⟨step, hstep, heq⟩ := List.mem_map.1 (List.mem_of_getLast? h)
  obtain ⟨_, -, rfl⟩ := List.mem_map.1 hstep
  simp at heq

theorem endsOutside_names (source : List String) :
    Pipeline.EndsOutside true (Step.ofMoves false (source.map .field) : Pipeline ω) :=
  endsOutside_moves _

theorem endsOutside_shape (sh : Shape (Step ω)) : Pipeline.EndsOutside true [.shape sh] := by
  intro m h
  simp at h

section
variable {s : State} {source key : List String}

/-- The forward run of a pipeline with a key behind it: the pipeline is run and the key is built. -/
theorem runSteps_key_forward (hs : s.effective = .forward) (ht : s.target = none)
    (hns : s.nonvalues.Scalar) (hkey : key ≠ []) {p : Pipeline ω} (hp : p.EndsUnbuilt)
    (x : Value) :
    Pipeline.runSteps (p ++ Step.ofMoves true (key.map .field)) x s =
      (p.runSteps x s).map fun out => (s.nonvalues.present out).elim .absent (Value.nest key) :=
  runSteps_append_build hs ht hp (fun c v => Path.construct_names hns hkey c v)
    (by simp [Nonvalues.present]) x

/-- The reverse run of a pipeline with a key behind it: the pipeline is run on what the key
reads. -/
theorem runSteps_key_reverse (hs : s.effective = .reverse) (hkey : key ≠ []) {p : Pipeline ω}
    (hp : p.EndsOutside true) {u m : Value}
    (hm : ∀ c, p.runSteps (u.readNames key) (s.withContext c) = .done m) :
    Pipeline.runSteps (p ++ Step.ofMoves true (key.map .field)) u s = .done m := by
  rw [runSteps_append_read hs hp (by simpa using hkey), Path.extract_names, hm]

theorem runSteps_names_forward (hs : s.effective = .forward) (ht : s.target = none)
    (hns : s.nonvalues.Scalar) (hkey : key ≠ []) (x : Value) :
    Pipeline.runSteps (Step.ofMoves false (source.map .field) ++
        Step.ofMoves true (key.map .field) : Pipeline ω) x s =
      .done ((s.nonvalues.present (x.readNames source)).elim .absent (Value.nest key)) := by
  have hread : false = s.isReverse := by simp [State.isReverse, hs, Direction.isReverse]
  rw [runSteps_key_forward hs ht hns hkey (endsOutside_names source).unbuilt,
    runSteps_extract hread, Task.map_done, Path.extract_names]

theorem runSteps_names_reverse (hs : s.effective = .reverse) (ht : s.target = none)
    (hns : s.nonvalues.Scalar) (hsource : source ≠ []) (hkey : key ≠ []) (u : Value) :
    Pipeline.runSteps (Step.ofMoves false (source.map .field) ++
        Step.ofMoves true (key.map .field) : Pipeline ω) u s =
      .done ((s.nonvalues.present (u.readNames key)).elim .absent (Value.nest source)) := by
  refine runSteps_key_reverse hs hkey (endsOutside_names source) fun c => ?_
  have hbuild : false ≠ (s.withContext c).isReverse := by
    change false ≠ s.isReverse
    simp [State.isReverse, hs, Direction.isReverse]
  have htarget : (s.withContext c).target = none := ht
  rw [runSteps_construct hbuild, htarget]
  exact congrArg Task.done (Path.construct_names hns hsource _ _)

/-- The forward run of a shape with a key behind it. -/
theorem runSteps_shape_forward (hs : s.effective = .forward) (ht : s.target = none)
    (hns : s.nonvalues.Scalar) (hkey : key ≠ []) {sh : Shape (Step ω)} {x m : Value}
    (hsh : runShape sh x s = .done m) :
    Pipeline.runSteps ([.shape sh] ++ Step.ofMoves true (key.map .field)) x s =
      .done ((s.nonvalues.present m).elim .absent (Value.nest key)) := by
  rw [runSteps_key_forward hs ht hns hkey (endsOutside_shape sh).unbuilt, runSteps_shape, hsh,
    Task.map_done]

/-- The reverse run of a shape with a key behind it. -/
theorem runSteps_shape_reverse (hs : s.effective = .reverse) (hkey : key ≠ [])
    {sh : Shape (Step ω)} {u m : Value}
    (hsh : ∀ c, runShape sh (u.readNames key) (s.withContext c) = .done m) :
    Pipeline.runSteps ([.shape sh] ++ Step.ofMoves true (key.map .field)) u s = .done m :=
  runSteps_key_reverse hs hkey (endsOutside_shape sh) fun c => by rw [runSteps_shape, hsh]

end

/-! ### Fields that contribute maps -/

/-- The result of a field merges as `m` does: it is `m`, or a nonvalue where `m` is empty. -/
structure Branch.Contributes (b : Branch ω) (x : Value) (s : State) (m : Value) : Prop where
  merge : b.merge = none
  only : b.only = none
  isMap : m.isMap = true
  run : ∃ result, b.run x s = .done result ∧ (s.nonvalues.present result).getD (.map []) = m

theorem absorb_contribution {ns : Nonvalues} {b : Branch ω} (hmerge : b.merge = none) {acc : Value}
    (hacc : acc.isMap = true) {result : Value}
    (hm : ((ns.present result).getD (.map [])).isMap = true) :
    b.absorb ns acc result = acc.deepMerge ((ns.present result).getD (.map [])) := by
  by_cases hresult : ns.contains result = true
  · simp [Branch.absorb, Nonvalues.present, hresult, Value.deepMerge_empty hacc]
  · have hmap : result.isMap = true := by simpa [Nonvalues.present, hresult] using hm
    cases acc with
    | map entries => simp [Branch.absorb, Nonvalues.present, hresult, hmerge, hmap]
    | _ => simp [Value.isMap] at hacc

/-- Fields that contribute maps all run, and taking up their results merges the maps. -/
theorem results_of_contributes {bs : List (Branch ω)} {parts : List Value} {x : Value} {s : State}
    (h : List.Forall₂ (fun b m => b.Contributes x s m) bs parts) :
    ∃ results : List Value,
      (bs.filter fun b => Direction.admits b.only s.effective) = bs ∧
      bs.map (fun b => b.run x s) = results.map .done ∧
      ∀ acc : Value, acc.isMap = true →
        (bs.zip results).foldl (fun acc r => r.1.absorb s.nonvalues acc r.2) acc =
          parts.foldl Value.deepMerge acc := by
  induction h with
  | nil => exact ⟨[], rfl, rfl, fun _ _ => rfl⟩
  | @cons b m bs parts hb _ ih =>
    obtain ⟨results, hactive, hruns, hfold⟩ := ih
    obtain ⟨result, hresult, rfl⟩ := hb.run
    have hadmits : Direction.admits b.only s.effective = true := by
      rw [hb.only, Direction.admits]
    refine ⟨result :: results, ?_, ?_, fun acc hacc => ?_⟩
    · simp only [List.filter, hadmits, hactive]
    · simp [hresult, hruns]
    · rw [List.zip_cons_cons, List.foldl_cons, List.foldl_cons,
        absorb_contribution hb.merge hacc hb.isMap]
      exact hfold _ (Value.isMap_deepMerge hacc hb.isMap)

/-- A map is assembled by merging what the fields contribute. -/
theorem assemble_done {bs : List (Branch ω)} {parts : List Value} {x : Value} {s : State}
    (ht : s.target = none) (h : List.Forall₂ (fun b m => b.Contributes x s m) bs parts) :
    assemble bs x s = .done (Value.mergeAll parts) := by
  obtain ⟨results, hactive, hruns, hfold⟩ := results_of_contributes h
  simp only [assemble, ht, hactive, State.withTarget_eq_self ht, hruns, Task.joinAll_done,
    Task.map_done]
  rw [hfold _ rfl, Value.mergeAll]

/-! ### What outlines are compiled to -/

/-- A field that computes its value by `p` and sets it on a path of names. -/
def Field.setting (text : String) (p : Pipeline ω) (key : List String) : Field (Step ω) where
  key := text
  steps := p ++ Step.ofMoves true (key.map .field)

theorem Field.merge_setting (text : String) (p : Pipeline ω) {key : List String} (h : key ≠ []) :
    (Field.setting text p key).merge = none := by
  obtain ⟨front, last, rfl⟩ := (List.eq_nil_or_concat key).resolve_left h
  simp [Field.merge, Field.setting, Step.ofMoves, Step.ofPath, Step.mergePreference,
    PathStep.mergePreference]

/-- The branch of such a field. -/
def Branch.setting (p : Pipeline ω) (key : List String) : Branch ω where
  merge := none
  only := none
  run := Pipeline.runSteps (p ++ Step.ofMoves true (key.map .field))

theorem branches_setting (text : String) (p : Pipeline ω) {key : List String} (h : key ≠ [])
    (fs : List (Field (Step ω))) :
    branches (Field.setting text p key :: fs) = Branch.setting p key :: branches fs := by
  have hmerge := Field.merge_setting text p h
  rw [Field.setting] at hmerge
  simp only [Field.setting, branches, hmerge]
  rfl

mutual

/-- An outline, compiled. -/
inductive Compiled : Outline → Pipeline ω → Prop
  | leaf (source : List String) : Compiled (.leaf source) (Step.ofMoves false (source.map .field))
  | node {fields : List (List String × Outline)} {fs : List (Field (Step ω))} :
    CompiledFields fields fs → Compiled (.node fields) [.shape { fields := fs }]

inductive CompiledFields : List (List String × Outline) → List (Field (Step ω)) → Prop
  | nil : CompiledFields [] []
  | cons {key : List String} {o : Outline} {p : Pipeline ω} {rest : List (List String × Outline)}
    {fs : List (Field (Step ω))} (text : String) : Compiled o p → CompiledFields rest fs →
      CompiledFields ((key, o) :: rest) (Field.setting text p key :: fs)

end

mutual

theorem Compiled.hasAlways : ∀ {o : Outline} {p : Pipeline ω}, Compiled o p → p.hasAlways = false
  | _, _, .leaf _ => hasAlways_ofPath _
  | _, _, .node h => by
    simp [Pipeline.hasAlways, stepsHaveAlways, Step.hasAlways, shapeHasAlways, h.hasAlways]

theorem CompiledFields.hasAlways : ∀ {fields : List (List String × Outline)}
    {fs : List (Field (Step ω))}, CompiledFields fields fs → fieldsHaveAlways fs = false
  | _, _, .nil => rfl
  | (key, _) :: _, _, .cons text h hrest => by
    have hkey : stepsHaveAlways (Step.ofMoves true (key.map .field) : Pipeline ω) = false :=
      hasAlways_ofPath _
    have hvalue := h.hasAlways
    rw [Pipeline.hasAlways] at hvalue
    simp only [Field.setting, fieldsHaveAlways, stepsHaveAlways_append, hvalue, hkey,
      hrest.hasAlways, Bool.or_self]

end

/-! ### Runs of compiled outlines -/

theorem Nonvalues.present_nest {ns : Nonvalues} (hns : ns.Scalar) {names : List String}
    (h : names ≠ []) (v : Value) :
    (ns.present ((ns.present v).elim .absent (Value.nest names))).getD (.map []) =
      Value.wrap ns names v := by
  rw [Value.wrap]
  cases ns.present v with
  | none => simp [present]
  | some v =>
    obtain ⟨name, rest, rfl⟩ := List.exists_cons_of_ne_nil h
    simp [present, hns.contains_map]

theorem Shape.enter_fields (fs : List (Field (Step ω))) (iterate : Bool) (s : State) :
    Shape.enter { fields := fs, iterate } s = s := by
  simp [Shape.enter]

/-- A shape that does not go into the items of `x` skips a nonvalue and assembles the maps of its
fields. -/
theorem runShape_value (fs : List (Field (Step ω))) {iterate : Bool} {x : Value}
    (h : iterate = false ∨ x.isSeq = false) (s : State) :
    runShape { fields := fs, iterate } x s =
      if s.isNonvalue x then .done x else assemble (branches fs) x s := by
  rcases h with rfl | h
  · simp [runShape, Shape.run, Direction.admits, Shape.enter_fields]
  · cases x <;> simp_all [runShape, Shape.run, Direction.admits, Shape.enter_fields, Value.isSeq]

/-- An iterating shape without a target leaves the items that it skips and puts what it assembles in
the place of the others, with the sequence on the context. -/
theorem runShape_items {sh : Shape (Step ω)} (hiterate : sh.iterate = true) (honly : sh.only = none)
    {s : State} (ht : s.target = none) {items : List Value} {f : Value → Value}
    (hf : ∀ v, (s.isNonvalue v && !sh.always) = false →
      assemble (branches sh.fields) v ((sh.enter s).pushContext (.seq items)) = .done (f v)) :
    runShape sh (.seq items) s =
      .done (.seq (items.map fun v => if s.isNonvalue v && !sh.always then v else f v)) := by
  obtain ⟨fields, iterate, flip, noDefaults, always, only⟩ := sh
  obtain rfl : iterate = true := hiterate
  obtain rfl : only = none := honly
  let inside := (Shape.enter ⟨fields, true, flip, noDefaults, always, none⟩ s).pushContext
    (.seq items)
  have hinside : inside.withTarget none = inside := State.withTarget_eq_self ht
  have hitem (p : Value × Nat) :
      (if s.isNonvalue p.1 && !always then .done p.1
        else assemble (branches fields) p.1 (inside.withTarget none)) =
      (.done (if s.isNonvalue p.1 && !always then p.1 else f p.1) : Task ω Value) := by
    rw [hinside]
    split
    · rfl
    · rename_i hruns
      exact hf p.1 (Bool.eq_false_iff.2 hruns)
  have hfst : (items.zipIdx.map fun p => if s.isNonvalue p.1 && !always then p.1 else f p.1) =
      items.map fun v => if s.isNonvalue v && !always then v else f v := by
    conv_rhs => rw [← List.zipIdx_map_fst 0 items, List.map_map]
    rfl
  have hslots (i : Nat) : ([] : List Value)[i]? = none := rfl
  simp only [runShape, Shape.run, Direction.admits, ht, Option.bind_none, Option.getD_none, hslots]
  rw [← hfst]
  exact congrArg (Task.map Value.seq) (Task.forItems_done hitem items.zipIdx)

section
variable {s : State} {source key : List String}

theorem contributes_leaf_forward (hs : s.effective = .forward) (ht : s.target = none)
    (hns : s.nonvalues.Scalar) (hkey : key ≠ []) (x : Value) :
    (Branch.setting (Step.ofMoves false (source.map .field) : Pipeline ω) key).Contributes x s
      (Value.wrap s.nonvalues key (x.readNames source)) :=
  ⟨rfl, rfl, Value.isMap_wrap _ hkey _, _, runSteps_names_forward hs ht hns hkey x,
    Nonvalues.present_nest hns hkey _⟩

theorem contributes_leaf_reverse (hs : s.effective = .reverse) (ht : s.target = none)
    (hns : s.nonvalues.Scalar) (hsource : source ≠ []) (hkey : key ≠ []) (u : Value) :
    (Branch.setting (Step.ofMoves false (source.map .field) : Pipeline ω) key).Contributes u s
      (Value.wrap s.nonvalues source (u.readNames key)) :=
  ⟨rfl, rfl, Value.isMap_wrap _ hsource _, _, runSteps_names_reverse hs ht hns hsource hkey u,
    Nonvalues.present_nest hns hsource _⟩

theorem contributes_node_forward (hs : s.effective = .forward) (ht : s.target = none)
    (hns : s.nonvalues.Scalar) (hkey : key ≠ []) {fs : List (Field (Step ω))} {x m : Value}
    (hx : s.isNonvalue x = false) (hm : assemble (branches fs) x s = .done m) :
    (Branch.setting [.shape { fields := fs }] key).Contributes x s
      (Value.wrap s.nonvalues key m) := by
  have hshape : runShape { fields := fs } x s = .done m := by
    rw [runShape_value fs (.inl rfl), hx, if_neg Bool.false_ne_true, hm]
  exact ⟨rfl, rfl, Value.isMap_wrap _ hkey _, _, runSteps_shape_forward hs ht hns hkey hshape,
    Nonvalues.present_nest hns hkey _⟩

/-- A shape that skips a nonvalue contributes as much as one whose fields make nothing of it. -/
theorem contributes_node_reverse (hs : s.effective = .reverse) (hns : s.nonvalues.Scalar)
    (hkey : key ≠ []) {fs : List (Field (Step ω))} {u m : Value}
    (hm : m.isMap = true)
    (hskip : s.nonvalues.contains (u.readNames key) = true → m = .map [])
    (hfields : ∀ c, assemble (branches fs) (u.readNames key) (s.withContext c) = .done m) :
    (Branch.setting [.shape { fields := fs }] key).Contributes u s m := by
  by_cases hu : s.nonvalues.contains (u.readNames key) = true
  · have hshape (c : Context) : runShape { fields := fs } (u.readNames key) (s.withContext c) =
        .done (u.readNames key) := by
      rw [runShape_value fs (.inl rfl)]
      exact if_pos hu
    refine ⟨rfl, rfl, hm, _, runSteps_shape_reverse hs hkey hshape, ?_⟩
    simp [Nonvalues.present, hu, hskip hu]
  · have hshape (c : Context) : runShape { fields := fs } (u.readNames key) (s.withContext c) =
        .done m := by
      rw [runShape_value fs (.inl rfl), hfields c]
      exact if_neg hu
    refine ⟨rfl, rfl, hm, _, runSteps_shape_reverse hs hkey hshape, ?_⟩
    simp [Nonvalues.present, hns.contains_of_isMap hm]

end

mutual

/-- In a forward run, a field contributes what the outline makes of the input, below its key. -/
theorem Compiled.contributes_forward {s : State} (hs : s.effective = .forward)
    (ht : s.target = none) (hns : s.nonvalues.Scalar) {x : Value} (hx : s.isNonvalue x = false) :
    ∀ {o : Outline} {p : Pipeline ω}, Compiled o p → o.Proper → ∀ {key : List String}, key ≠ [] →
      (Branch.setting p key).Contributes x s
        (Value.wrap s.nonvalues key (o.forward s.nonvalues x))
  | _, _, .leaf _, _, _, hkey => contributes_leaf_forward hs ht hns hkey x
  | _, _, .node h, hnode, _, hkey =>
    contributes_node_forward hs ht hns hkey hx
      (assemble_done ht (h.contributes_forward hs ht hns hx hnode.2))

theorem CompiledFields.contributes_forward {s : State} (hs : s.effective = .forward)
    (ht : s.target = none) (hns : s.nonvalues.Scalar) {x : Value} (hx : s.isNonvalue x = false) :
    ∀ {fields : List (List String × Outline)} {fs : List (Field (Step ω))},
      CompiledFields fields fs → Outline.ProperFields fields →
      List.Forall₂ (fun b m => b.Contributes x s m) (branches fs)
        (Outline.forwardFields s.nonvalues fields x)
  | _, _, .nil, _ => .nil
  | _, _, .cons text h hrest, hp => by
    obtain ⟨hkey, ho, hproper⟩ := hp
    rw [branches_setting _ _ hkey]
    exact .cons (h.contributes_forward hs ht hns hx ho hkey)
      (hrest.contributes_forward hs ht hns hx hproper)

end

mutual

/-- In a reverse run, a field contributes what the outline makes of the value at its key. -/
theorem Compiled.contributes_reverse {s : State} (hs : s.effective = .reverse)
    (ht : s.target = none) (hns : s.nonvalues.Scalar) (u : Value) :
    ∀ {o : Outline} {p : Pipeline ω}, Compiled o p → o.Proper → ∀ {key : List String}, key ≠ [] →
      (Branch.setting p key).Contributes u s (o.reverse s.nonvalues (u.readNames key))
  | _, _, .leaf _, hsource, _, hkey => contributes_leaf_reverse hs ht hns hsource hkey u
  | _, _, .node h, hnode, key, hkey =>
    have hfields (c : Context) := assemble_done (s := s.withContext c) ht
      (h.contributes_reverse (s := s.withContext c) hs ht hns (u.readNames key) hnode.2)
    contributes_node_reverse hs hns hkey
      (Outline.isMap_reverse s.nonvalues hnode (u.readNames key))
      (Outline.reverse_nonvalue hns hnode.2) hfields

theorem CompiledFields.contributes_reverse {s : State} (hs : s.effective = .reverse)
    (ht : s.target = none) (hns : s.nonvalues.Scalar) (u : Value) :
    ∀ {fields : List (List String × Outline)} {fs : List (Field (Step ω))},
      CompiledFields fields fs → Outline.ProperFields fields →
      List.Forall₂ (fun b m => b.Contributes u s m) (branches fs)
        (Outline.reverseFields s.nonvalues fields u)
  | _, _, .nil, _ => .nil
  | _, _, .cons text h hrest, hp => by
    obtain ⟨hkey, ho, hproper⟩ := hp
    rw [branches_setting _ _ hkey]
    exact .cons (h.contributes_reverse hs ht hns u ho hkey)
      (hrest.contributes_reverse hs ht hns u hproper)

end

end Reshape
