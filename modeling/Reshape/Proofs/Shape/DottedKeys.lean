import Reshape.Proofs.Shape.SingleField
import Reshape.Proofs.Task.Outcome
import Reshape.Proofs.Value.Rebind

/-!
# Dotted keys

A shape under a key and a shape with dotted keys say the same thing twice: `{a: {b: d, c: e}}` wraps
the map of the inner fields once, `{"a.b": d, "a.c": e}` merges one map of two levels for each
field. Their forward runs agree (`run_dotted`) because the definitions see the same value in the
same state either way, and because merging the results one level down keeps them apart, so that no
map among them is merged into another (`Value.under_deepMerge_wrap`). Only where all results are
nonvalues does it show that the nested shape still makes a map.
-/

namespace Reshape

variable {ω : Type}

/-! ### Merging results under names -/

/-- The bindings whose values are no nonvalues. -/
def Nonvalues.bindings (ns : Nonvalues) (bs : Entries Value) : Entries Value :=
  bs.filter fun b => !ns.contains b.2

theorem Nonvalues.bindings_cons (ns : Nonvalues) (b : String × Value) (bs : Entries Value) :
    ns.bindings (b :: bs) = ns.bindings [b] ++ ns.bindings bs :=
  List.filter_append [b] bs

namespace Value

variable {ns : Nonvalues}

/-- A map with these entries under a name, if there are any. -/
def under (name : String) (es : Entries Value) : Value :=
  if es.isEmpty then .map [] else .map [(name, .map es)]

/-- A present value under a new name comes behind the entries. -/
theorem map_deepMerge_new {es : Entries Value} {name : String} (h : name ∉ es.keys) {x : Value}
    (hx : x.isAbsent = false) :
    (map es).deepMerge (map [(name, x)]) = map (es ++ [(name, x)]) := by
  have hget : es.get? name = none := (Entries.get?_eq_none_iff es name).2 h
  simp [deepMerge, deepMergeEntries, hx, hget, Entries.insert_of_not_mem h]

theorem map_deepMerge_wrap {es : Entries Value} {name : String} (h : name ∉ es.keys) (x : Value) :
    (map es).deepMerge (wrap ns [name] x) = map (es ++ ns.bindings [(name, x)]) := by
  cases hx : ns.contains x with
  | true => simpa [wrap, Nonvalues.present, Nonvalues.bindings, hx] using deepMerge_empty rfl
  | false =>
    simpa [wrap, Nonvalues.present, Nonvalues.bindings, hx] using
      map_deepMerge_new h (Nonvalues.isAbsent_of_present hx)

/-- Below another name, the entries of two maps come together as they do without it. -/
theorem under_deepMerge_wrap (a : String) {es : Entries Value} {name : String} (h : name ∉ es.keys)
    (x : Value) :
    (under a es).deepMerge (wrap ns [a, name] x) = under a (es ++ ns.bindings [(name, x)]) := by
  have hempty : (under a es).deepMerge (.map []) = under a es :=
    deepMerge_empty (by rw [under]; split <;> rfl)
  cases hx : ns.contains x with
  | true => simpa [wrap, Nonvalues.present, Nonvalues.bindings, hx] using hempty
  | false =>
    have hnew := map_deepMerge_new h (Nonvalues.isAbsent_of_present hx)
    cases es with
    | nil => simp [under, wrap, Nonvalues.present, Nonvalues.bindings, hx, deepMerge,
        deepMergeEntries, Entries.get?, Entries.insert, isAbsent]
    | cons b es =>
      simp [under, wrap, Nonvalues.present, Nonvalues.bindings, hx, deepMerge,
        deepMergeEntries, Entries.get?, Entries.insert, isAbsent] at hnew ⊢
      exact hnew

/-- Merging parts that each bind one new name, as far as their values are no nonvalues. -/
theorem foldl_bindings {whole : Entries Value → Value} {part : String → Value → Value}
    (step : ∀ {es name}, name ∉ Entries.keys es → ∀ x,
      (whole es).deepMerge (part name x) = whole (es ++ ns.bindings [(name, x)]))
    {es bs : Entries Value} (hnd : (es.keys ++ bs.keys).Nodup) :
    (bs.map fun b => part b.1 b.2).foldl deepMerge (whole es) = whole (es ++ ns.bindings bs) := by
  induction bs generalizing es with
  | nil => simp [Nonvalues.bindings]
  | cons b rest ih =>
    obtain ⟨name, x⟩ := b
    have hname : name ∉ es.keys := fun hmem =>
      (List.nodup_append.1 hnd).2.2 name hmem name List.mem_cons_self rfl
    have hkeys : (Entries.keys (es ++ ns.bindings [(name, x)]) ++ Entries.keys rest).Nodup := by
      refine hnd.sublist ?_
      rw [Entries.keys, List.map_append, List.append_assoc]
      exact (List.Sublist.append_right (List.filter_sublist.map _) _).append_left es.keys
    rw [List.map_cons, List.foldl_cons, step hname, ih hkeys, List.append_assoc,
      ← Nonvalues.bindings_cons]

end Value

/-! ### Definitions under plain keys -/

/-- A plain key with a definition under it, which is compiled to steps that build nothing at their
end. -/
structure Member (voc : Vocabulary ω) where
  key : String
  name : String
  definition : Json
  steps : Pipeline ω
  spells : Path.Spells key name
  compiles : compile voc definition = .ok steps
  unbuilt : steps.EndsUnbuilt

namespace Member

variable {voc : Vocabulary ω}

/-- The setting of the key alone. -/
def plain (m : Member voc) : Setting voc :=
  .named m.spells m.compiles

/-- The setting of the key behind another one. -/
def dotted {key name : String} (h : Path.Spells key name) (m : Member voc) : Setting voc where
  key := key ++ "." ++ m.key
  names := [name, m.name]
  definition := m.definition
  steps := m.steps
  isDollarKey_key := by rw [String.append_assoc, h.isDollarKey_append]
  names?_key := h.names?_dotted m.spells
  names_ne_nil := List.cons_ne_nil name _
  compiles := m.compiles

/-- The results of the definitions, run side by side. -/
def results (ms : List (Member voc)) (v : Value) (s : State) : Task ω (List Value) :=
  Task.joinAll (ms.map fun m => m.steps.start v s)

/-- The results that are no nonvalues, under the names. -/
def bindings (ms : List (Member voc)) (ns : Nonvalues) (rs : List Value) : Entries Value :=
  ns.bindings ((ms.map name).zip rs)

section
variable {ms : List (Member voc)} {ns : Nonvalues} {rs : List Value}

theorem bindings_of_nonvalues (h : ∀ r ∈ rs, ns.contains r = true) : bindings ms ns rs = [] := by
  refine List.filter_eq_nil_iff.2 fun b hb => ?_
  simp [h b.2 (List.of_mem_zip hb).2]

theorem bindings_ne_nil (hlength : rs.length = ms.length) {r : Value} (hr : r ∈ rs)
    (hpresent : ns.contains r = false) : bindings ms ns rs ≠ [] := by
  have hzip : ((ms.map name).zip rs).map Prod.snd = rs := List.map_snd_zip (by simp [hlength])
  obtain ⟨b, hb, rfl⟩ := List.mem_map.1 (hzip.symm ▸ hr)
  exact List.ne_nil_of_mem (List.mem_filter.2 ⟨hb, by simp [hpresent]⟩)

theorem length_results {v : Value} {s : State} (h : (results ms v s).Returns rs) :
    rs.length = ms.length := by
  simpa using ((Task.returns_joinAll ..).1 h).length_eq.symm

/-- Merging parts that each bind one name to one result. -/
theorem mergeAll_results (hnames : (ms.map name).Nodup) (hlength : rs.length = ms.length)
    (whole : Entries Value → Value) {part : String → Value → Value} (hwhole : whole [] = .map [])
    (step : ∀ {es name}, name ∉ Entries.keys es → ∀ x,
      (whole es).deepMerge (part name x) = whole (es ++ ns.bindings [(name, x)])) :
    Value.mergeAll (List.zipWith (fun m => part m.name) ms rs) = whole (bindings ms ns rs) := by
  have hparts : List.zipWith (fun m => part m.name) ms rs =
      ((ms.map name).zip rs).map fun b => part b.1 b.2 := by
    simp [List.zip, List.map_zipWith, List.zipWith_map_left]
  have hkeys : Entries.keys ((ms.map name).zip rs) = ms.map name :=
    List.map_fst_zip (by simp [hlength])
  have hnd : (Entries.keys ([] : Entries Value) ++
      Entries.keys ((ms.map name).zip rs)).Nodup := by rwa [hkeys]
  rw [Value.mergeAll, hparts, ← hwhole]
  exact Value.foldl_bindings step hnd

end

/-! ### The two shapes -/

section
variable {ms : List (Member voc)} {s : State} {v : Value}

/-- The fields bind what the definitions make to their names. -/
theorem runShape_plain (hs : s.effective = .forward) (ht : s.target = none)
    (hns : s.nonvalues.Scalar) (hv : s.isNonvalue v = false) (hnames : (ms.map name).Nodup) :
    runShape { fields := (ms.map plain).map Setting.field } v s =
      (results ms v s).map fun rs => .map (bindings ms s.nonvalues rs) := by
  have hunbuilt : ∀ e ∈ ms.map plain, e.steps.EndsUnbuilt := by
    intro e he
    obtain ⟨m, -, rfl⟩ := List.mem_map.1 he
    exact m.unbuilt
  rw [runShape_settings hs ht hns hv hunbuilt, List.map_map]
  refine Task.map_congr fun rs hrs => ?_
  rw [List.zipWith_map_left]
  exact mergeAll_results hnames (length_results hrs) Value.map rfl Value.map_deepMerge_wrap

theorem runShape_dotted (hs : s.effective = .forward) (ht : s.target = none)
    (hns : s.nonvalues.Scalar) (hv : s.isNonvalue v = false) (hnames : (ms.map name).Nodup)
    {key a : String} (hkey : Path.Spells key a) :
    runShape { fields := (ms.map (dotted hkey)).map Setting.field } v s =
      (results ms v s).map fun rs => Value.under a (bindings ms s.nonvalues rs) := by
  have hunbuilt : ∀ e ∈ ms.map (dotted hkey), e.steps.EndsUnbuilt := by
    intro e he
    obtain ⟨m, -, rfl⟩ := List.mem_map.1 he
    exact m.unbuilt
  rw [runShape_settings hs ht hns hv hunbuilt, List.map_map]
  refine Task.map_congr fun rs hrs => ?_
  rw [List.zipWith_map_left]
  exact mergeAll_results hnames (length_results hrs) (Value.under a) rfl
    (Value.under_deepMerge_wrap a)

/-- The shape with the plain keys, under one more key. -/
theorem start_nested (hs : s.effective = .forward) (ht : s.target = none)
    (hns : s.nonvalues.Scalar) (hv : s.isNonvalue v = false) (hnames : (ms.map name).Nodup)
    (key a : String) :
    Pipeline.start [.shape { fields :=
        [.setting key [.shape { fields := (ms.map plain).map Setting.field }] [a]] }] v s =
      (results ms v s).map fun rs => .map [(a, .map (bindings ms s.nonvalues rs))] := by
  have ha : [a] ≠ [] := List.cons_ne_nil a []
  have hrun := runSteps_key_forward hs ht hns ha
    (endsOutside_shape { fields := (ms.map plain).map Setting.field }).unbuilt v
  rw [start_single ht hns hv key ha ha hrun, runSteps_shape,
    runShape_plain hs ht hns hv hnames, Task.map_map]
  refine Task.bind_congr fun rs => congrArg Task.done ?_
  simp [Value.wrap, Nonvalues.present, hns.contains_map]

end

end Member

/-! ### Runs -/

/-- How the runs of the nested and of the flat shape end, when those of the definitions inside end
side by side with `results`. -/
structure DottedAlike (ns : Nonvalues) (a : String) (results : Except Fault (List Value) × ω)
    (nested flat : Except Fault Value × ω) : Prop where
  /-- They are the same if one of the definitions makes something or fails. -/
  same : (∀ rs, results.1 = .ok rs → ∃ r ∈ rs, ns.contains r = false) → flat = nested
  /-- Else the nested shape still makes a map under the key. -/
  empty : ∀ rs, results.1 = .ok rs → (∀ r ∈ rs, ns.contains r = true) →
    nested = (.ok (.map [(a, .map [])]), results.2) ∧ flat = (.ok (.map []), results.2)

theorem dottedAlike_results {voc : Vocabulary ω} {ms : List (Member voc)} (ns : Nonvalues)
    (a : String) {out : Except Fault (List Value) × ω}
    (hlength : ∀ rs, out.1 = .ok rs → rs.length = ms.length) :
    DottedAlike ns a out (out.1.map fun rs => .map [(a, .map (Member.bindings ms ns rs))], out.2)
      (out.1.map fun rs => Value.under a (Member.bindings ms ns rs), out.2) := by
  obtain ⟨_ | rs, w⟩ := out
  · exact ⟨fun _ => rfl, fun rs hrs => by cases hrs⟩
  · refine ⟨fun hsome => ?_, fun rs hrs hnone => ?_⟩
    · obtain ⟨r, hr, hpresent⟩ := hsome rs rfl
      have hne := Member.bindings_ne_nil (hlength rs rfl) hr hpresent
      simp [Except.map, Value.under, hne]
    · cases hrs
      simp [Except.map, Value.under, Member.bindings_of_nonvalues hnone]

/-- A shape under a plain key runs forward as the shape with the dotted keys does. -/
theorem run_dotted {voc : Vocabulary ω} {key a : String} (hkey : Path.Spells key a)
    {ms : List (Member voc)} (hnames : (ms.map Member.name).Nodup) :
    ∃ nested flat : Pipeline ω,
      compile voc (.obj [(key, .obj (ms.map fun m => (m.key, m.definition)))]) = .ok nested ∧
      compile voc (.obj (ms.map fun m => (key ++ "." ++ m.key, m.definition))) = .ok flat ∧
      ∀ o : Options, o.direction.flippedBy o.flip = .forward → o.target = none →
        o.nonvalues.Scalar → ∀ v, o.nonvalues.contains v = false → ∀ w,
        let results := Member.results ms v (.ofOptions o)
        DottedAlike o.nonvalues a (results.runSync w) (nested.run v o w) (flat.run v o w) ∧
        DottedAlike o.nonvalues a (results.complete w) (nested.runAsync v o w)
          (flat.runAsync v o w) := by
  have hinner := Definition.compile_settings (ms.map Member.plain)
  have hflat := Definition.compile_settings (ms.map (Member.dotted hkey))
  rw [List.map_map] at hinner hflat
  refine ⟨_, _, Definition.compile_single hinner hkey, hflat, fun o hs ht hns v hv w => ?_⟩
  have hnested := Member.start_nested (s := .ofOptions o) hs ht hns hv hnames key a
  have hdotted := (start_shape (by simp [State.isNonvalue, State.ofOptions, hv])).trans
    (Member.runShape_dotted (s := .ofOptions o) hs ht hns hv hnames hkey)
  have hlength (rs : List Value)
      (hrs : ((Member.results ms v (.ofOptions o)).complete w).1 = .ok rs) :
      rs.length = ms.length :=
    Member.length_results (Task.returns_of_complete hrs)
  simp only [Pipeline.run, Pipeline.runAsync, hnested, hdotted, Task.runSync_map,
    Task.complete_map]
  exact ⟨dottedAlike_results _ a fun rs hrs => hlength rs (Task.complete_of_runSync hrs),
    dottedAlike_results _ a hlength⟩

/-- Two maps as results, which stay apart, and a definition that reads nothing. -/
theorem run_dotted_maps :
    ∃ nested flat : Pipeline Unit,
      compile {} (.obj [("a", .obj [("b", .str "x"), (" c ", .str "y"), ("d", .str "z")])]) =
        .ok nested ∧
      compile {} (.obj [("a.b", .str "x"), ("a. c ", .str "y"), ("a.d", .str "z")]) = .ok flat ∧
      flat.run (.map [("x", .map [("k", .int 1)]), ("z", .map [("k", .int 2)])]) {} () =
        nested.run (.map [("x", .map [("k", .int 1)]), ("z", .map [("k", .int 2)])]) {} () ∧
      nested.run (.str "") {} () = (.ok (.map [("a", .map [])]), ()) ∧
      flat.run (.str "") {} () = (.ok (.map []), ()) := by
  have hpath (names : List String) :
      Pipeline.EndsUnbuilt (Step.ofMoves false (names.map .field) : Pipeline Unit) :=
    (endsOutside_names names).unbuilt
  have hkey : Path.Spells "a" "a" := ⟨by decide, by decide, by simp [isPathSyntax]⟩
  let ms : List (Member ({} : Vocabulary Unit)) := [
    ⟨"b", "b", .str "x", _, ⟨by decide, by decide, by simp [isPathSyntax]⟩, rfl, hpath ["x"]⟩,
    ⟨" c ", "c", .str "y", _, ⟨by decide, by decide, by simp [isPathSyntax]⟩, rfl, hpath ["y"]⟩,
    ⟨"d", "d", .str "z", _, ⟨by decide, by decide, by simp [isPathSyntax]⟩, rfl, hpath ["z"]⟩]
  have hms : (ms.map Member.name).Nodup := by simp [ms]
  obtain ⟨nested, flat, hnested, hflat, hruns⟩ := run_dotted hkey hms
  refine ⟨nested, flat, hnested, hflat, ?_, ?_⟩
  · refine (hruns {} rfl rfl (by decide) (.map [("x", .map [("k", .int 1)]),
      ("z", .map [("k", .int 2)])]) (by decide) ()).1.same fun rs hrs => ?_
    cases hrs
    exact ⟨_, List.mem_cons_self, by decide⟩
  · refine (hruns {} rfl rfl (by decide) (.str "") (by decide) ()).1.empty
      [.absent, .absent, .absent] rfl ?_
    decide

end Reshape
