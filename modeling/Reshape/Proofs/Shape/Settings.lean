import Reshape.Proofs.Definition.Outline
import Reshape.Proofs.Path.Names
import Reshape.Proofs.Shape.Absorb

/-!
# Shapes of fields that set names

A `Setting` is a key that is a path of names, with the definition under it. Objects of settings are
compiled to shapes with one field for each (`compile_settings`). In a forward run without a target
each field puts what its definition makes below its names, and the shape merges what the fields set
(`assemble_settings`).
-/

namespace Reshape

variable {ω : Type}

/-! ### Keys -/

theorem isDollarKey_of_isKnownKey {key : String} (h : isKnownKey key = true) :
    isDollarKey key = true := by
  simp only [isKnownKey, Bool.or_eq_true, List.contains_iff_mem, controlKeys, Marker.all,
    List.map_cons, List.map_nil, List.mem_cons, List.not_mem_nil, or_false] at h
  rcases h with (rfl | rfl | rfl | rfl | rfl | rfl | rfl | rfl) | rfl | rfl | rfl | rfl | rfl | rfl
    <;> decide

namespace Path.Spells

variable {text name : String}

/-- A text that starts as one that spells a name does not start with a dollar sign. -/
theorem isDollarKey_append (h : Spells text name) (back : String) :
    isDollarKey (text ++ back) = false := by
  cases htext : text.toList with
  | nil =>
    refine absurd ?_ h.ne_nil
    rw [← h.trim, htext]
    rfl
  | cons c rest =>
    have hc : c ≠ '$' := by
      rintro rfl
      exact absurd (h.plain_text '$' (htext ▸ List.mem_cons_self)) (by decide)
    simp [isDollarKey, htext, hc]

theorem isDollarKey_eq (h : Spells text name) : isDollarKey text = false := by
  have happend := h.isDollarKey_append ""
  rwa [String.append_empty] at happend

theorem names?_eq (h : Spells text name) : Definition.names? text = some [name] := by
  rw [Definition.names?, h.tokenize]
  rfl

theorem names?_dotted (h : Spells text name) {text' name' : String} (h' : Spells text' name') :
    Definition.names? (text ++ "." ++ text') = some [name, name'] := by
  rw [Definition.names?, h.tokenize_dotted h']
  rfl

end Path.Spells

/-! ### Compiling -/

/-- A key that is a path of names, and a definition that is compiled. -/
structure Setting (voc : Vocabulary ω) where
  key : String
  names : List String
  definition : Json
  steps : Pipeline ω
  isDollarKey_key : isDollarKey key = false
  names?_key : Definition.names? key = some names
  names_ne_nil : names ≠ []
  compiles : compile voc definition = .ok steps

namespace Setting

variable {voc : Vocabulary ω}

/-- The member of an object. -/
def entry (e : Setting voc) : String × Json :=
  (e.key, e.definition)

def field (e : Setting voc) : Field (Step ω) :=
  .setting e.key e.steps e.names

end Setting

namespace Definition

section
variable {voc : Vocabulary ω} {named : String → Except Fault (Pipeline ω)}

/-- An object whose keys all name data is compiled to a shape without flags. -/
theorem steps_fields {es : Entries Json} (hes : ∀ b ∈ es, isDollarKey b.1 = false) :
    steps voc named (.obj es) =
      (fun fs => [.shape { fields := fs }]) <$> keyedFields voc named es := by
  have hget (key : String) (hkey : isKnownKey key = true) : es.get? key = none := by
    refine (Entries.get?_eq_none_iff es key).2 fun hmem => ?_
    obtain ⟨b, hb, rfl⟩ := List.mem_map.1 hmem
    exact absurd (isDollarKey_of_isKnownKey hkey) (by simp [hes b hb])
  have hiterate : flag es "$iterate" = false := by
    simp [flag, hget "$iterate" (by decide)]
  rw [steps_obj_eq voc named fun key hkey _ => hget key hkey, hiterate]

/-- A key that is a path of names has a field that sets these names. -/
theorem keyedFields_setting {key : String} (hdollar : isDollarKey key = false)
    {names : List String} (hnames : names? key = some names) (hne : names ≠ []) {d : Json}
    {p : Pipeline ω} (hd : steps voc named d = .ok p) (es : Entries Json) :
    keyedFields voc named ((key, d) :: es) =
      (Field.setting key p names :: ·) <$> keyedFields voc named es := by
  rw [keyedFields, if_neg (by simp [hdollar]), hd, keySteps_names hnames hne]
  rfl

theorem keyedFields_settings (L : List (Setting voc)) :
    keyedFields voc (namedPipeline voc voc.registry.pipelines) (L.map Setting.entry) =
      .ok (L.map Setting.field) := by
  induction L with
  | nil => rfl
  | cons e rest ih =>
    rw [List.map_cons, Setting.entry,
      keyedFields_setting e.isDollarKey_key e.names?_key e.names_ne_nil e.compiles, ih]
    rfl

theorem compile_settings (L : List (Setting voc)) :
    compile voc (.obj (L.map Setting.entry)) = .ok [.shape { fields := L.map Setting.field }] := by
  have hkeys : ∀ b ∈ L.map Setting.entry, isDollarKey b.1 = false := by
    intro b hb
    obtain ⟨e, -, rfl⟩ := List.mem_map.1 hb
    exact e.isDollarKey_key
  rw [compile, steps_fields hkeys, keyedFields_settings]
  rfl

end

end Definition

/-! ### Running -/

namespace Value

theorem empty_deepMerge_wrap (ns : Nonvalues) {names : List String} (h : names ≠ []) (x : Value) :
    (map []).deepMerge (wrap ns names x) = wrap ns names x := by
  obtain ⟨name, rest, rfl⟩ := List.exists_cons_of_ne_nil h
  by_cases hx : ns.contains x = true
  · simp [wrap, Nonvalues.present, hx, deepMerge, deepMergeEntries]
  · have habsent : x.isAbsent = false := by
      cases x <;> simp_all [isAbsent]
    have hnest := isAbsent_nest habsent rest
    simp [wrap, Nonvalues.present, hx, deepMerge, deepMergeEntries, hnest, Entries.get?,
      Entries.insert]

/-- What a key of names makes of a value: the value below the names, or absence. -/
def set (ns : Nonvalues) (names : List String) (x : Value) : Value :=
  (ns.present x).elim .absent (nest names)

end Value

section
variable {s : State} {v : Value} {α : Type} {steps : α → Pipeline ω} {key names : α → List String}

/-- Taking up what fields set merges it, below its names. -/
theorem absorbAll_settings (hns : s.nonvalues.Scalar) {L : List α}
    (hnames : ∀ a ∈ L, names a ≠ []) (results : List Value) {acc : Value}
    (hacc : acc.isMap = true) :
    absorbAll s.nonvalues acc ((L.map fun a => Branch.setting (steps a) (key a)).zip
        (List.zipWith (fun a => Value.set s.nonvalues (names a)) L results)) =
      (List.zipWith (fun a => Value.wrap s.nonvalues (names a)) L results).foldl
        Value.deepMerge acc := by
  induction L generalizing results acc with
  | nil => rfl
  | cons a rest ih =>
    obtain _ | ⟨x, results⟩ := results
    · rfl
    obtain ⟨ha, hrest⟩ := List.forall_mem_cons.1 hnames
    have hset : (s.nonvalues.present (Value.set s.nonvalues (names a) x)).getD (.map []) =
        Value.wrap s.nonvalues (names a) x := Nonvalues.present_nest hns ha x
    have hmap := Value.isMap_wrap s.nonvalues ha x
    simp only [List.map_cons, List.zipWith_cons_cons, List.zip_cons_cons, absorbAll_cons,
      List.foldl_cons]
    rw [absorb_contribution rfl hacc (hset ▸ hmap), hset]
    exact ih hrest results (Value.isMap_deepMerge hacc hmap)

/-- In a forward run without a target a shape merges what its fields set. -/
theorem assemble_settings (ht : s.target = none) (hns : s.nonvalues.Scalar) {L : List α}
    (hnames : ∀ a ∈ L, names a ≠ []) {t : α → Task ω Value}
    (hrun : ∀ a ∈ L, Pipeline.runSteps (steps a ++ Step.ofMoves true ((key a).map .field)) v s =
      (t a).map (Value.set s.nonvalues (names a))) :
    assemble (L.map fun a => Branch.setting (steps a) (key a)) v s =
      (Task.joinAll (L.map t)).map fun results =>
        Value.mergeAll (List.zipWith (fun a => Value.wrap s.nonvalues (names a)) L results) := by
  have hactive : activeIn s (L.map fun a => Branch.setting (steps a) (key a)) =
      L.map fun a => Branch.setting (steps a) (key a) :=
    List.filter_eq_self.2 fun b hb => by
      obtain ⟨a, -, rfl⟩ := List.mem_map.1 hb
      rfl
  have hgather : gather (L.map fun a => Branch.setting (steps a) (key a)) v s =
      (Task.joinAll (L.map t)).map
        (List.zipWith (fun a => Value.set s.nonvalues (names a)) L) := by
    rw [gather, hactive, List.map_map, ← Task.joinAll_map, State.withTarget_eq_self ht]
    exact congrArg Task.joinAll (List.map_congr_left hrun)
  rw [assemble_eq, hactive, hgather, Task.map_map, ht]
  exact Task.bind_congr fun results =>
    congrArg Task.done (absorbAll_settings hns hnames results rfl)

theorem branches_settings {voc : Vocabulary ω} (L : List (Setting voc)) :
    branches (L.map Setting.field) = L.map fun e => Branch.setting e.steps e.names := by
  induction L with
  | nil => rfl
  | cons e rest ih =>
    rw [List.map_cons, Setting.field, branches_setting _ _ e.names_ne_nil, ih, List.map_cons]

/-- The forward run of a shape of settings makes all it makes of the results of the definitions. -/
theorem runShape_settings (hs : s.effective = .forward) (ht : s.target = none)
    (hns : s.nonvalues.Scalar) (hv : s.isNonvalue v = false) {voc : Vocabulary ω}
    {L : List (Setting voc)} (hL : ∀ e ∈ L, e.steps.EndsUnbuilt) :
    runShape { fields := L.map Setting.field } v s =
      (Task.joinAll (L.map fun e => e.steps.start v s)).map fun results =>
        Value.mergeAll (List.zipWith (fun e => Value.wrap s.nonvalues e.names) L results) := by
  rw [runShape_value _ (.inl rfl), hv, if_neg Bool.false_ne_true, branches_settings]
  refine assemble_settings ht hns (fun e _ => e.names_ne_nil) fun e he => ?_
  rw [start_present hv]
  exact runSteps_key_forward hs ht hns e.names_ne_nil (hL e he) v

end

end Reshape
