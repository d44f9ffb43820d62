import Reshape.Pipeline.Equality
import Reshape.Proofs.Definition.Apply
import Reshape.Proofs.Definition.Operations
import Reshape.Proofs.Json.Leaves
import Reshape.Proofs.Value.Equality

/-!
# Compiling a definition again

Two compilations of one definition give equal pipelines (`compile_again`), since the transforms that
factories make are told apart by name and properties alone. What is compared besides is read off the
definition, and equals itself: documents repeat no keys, and have no NaN.
-/

namespace Reshape

/-! ### Documents of a host -/

namespace Json

/-- No object in the document repeats a key, and no float in it is a NaN. -/
structure Proper (j : Json) : Prop where
  distinct : (Value.ofJson j).Distinct
  numbers : ∀ x, .float x ∈ j.leaves → x.isNaN = false

end Json

namespace Value

theorem ofItems_eq_map (items : List Json) : ofItems items = items.map ofJson := by
  induction items with
  | nil => rfl
  | cons j rest ih => rw [ofItems, ih, List.map_cons]

theorem ofEntries_eq_mapValues (entries : Entries Json) :
    ofEntries entries = entries.mapValues ofJson := by
  induction entries with
  | nil => rfl
  | cons b rest ih =>
    rw [ofEntries, ih]
    rfl

theorem keys_ofEntries (entries : Entries Json) :
    Entries.keys (ofEntries entries) = entries.keys := by
  simp [ofEntries_eq_mapValues, Entries.mapValues, Entries.keys, Function.comp_def]

mutual

/-- The floats that are read from a document are its own, and those next to large integers. -/
theorem isNaN_floats_ofJson : ∀ {j : Json}, (∀ x, .float x ∈ j.leaves → x.isNaN = false) →
    ∀ x ∈ (ofJson j).floats, x.isNaN = false
  | .arr _, h => isNaN_floats_ofItems h
  | .obj _, h => isNaN_floats_ofEntries h
  | .float x, h => fun y hy => by
    obtain rfl := List.mem_singleton.1 hy
    exact h y List.mem_cons_self
  | .int n, _ => fun x hx => by
    rw [ofJson] at hx
    split at hx
    · cases hx
    · obtain rfl := List.mem_singleton.1 hx
      exact Double.isNaN_ofInt n
  | .null, _ | .bool _, _ | .str _, _ => fun _ hx => nomatch hx

theorem isNaN_floats_ofItems : ∀ {items : List Json},
    (∀ x, .float x ∈ Json.itemLeaves items → x.isNaN = false) →
      ∀ x ∈ itemFloats (ofItems items), x.isNaN = false
  | [], _ => fun _ hx => nomatch hx
  | _ :: _, h => fun x hx => (List.mem_append.1 hx).elim
    (isNaN_floats_ofJson (fun y hy => h y (List.mem_append_left _ hy)) x)
    (isNaN_floats_ofItems (fun y hy => h y (List.mem_append_right _ hy)) x)

theorem isNaN_floats_ofEntries : ∀ {entries : List (String × Json)},
    (∀ x, .float x ∈ Json.entryLeaves entries → x.isNaN = false) →
      ∀ x ∈ entryFloats (ofEntries entries), x.isNaN = false
  | [], _ => fun _ hx => nomatch hx
  | (_, _) :: _, h => fun x hx => (List.mem_append.1 hx).elim
    (isNaN_floats_ofJson (fun y hy => h y (List.mem_append_left _ hy)) x)
    (isNaN_floats_ofEntries (fun y hy => h y (List.mem_append_right _ hy)) x)

end

end Value

namespace Json.Proper

variable {j : Json} {items : List Json} {es : Entries Json}

theorem eqv_self (h : j.Proper) : (Value.ofJson j).eqv (Value.ofJson j) = true :=
  (Value.eqv_self_iff h.distinct).2 (Value.isNaN_floats_ofJson h.numbers)

theorem item (h : (Json.arr items).Proper) (hj : j ∈ items) : j.Proper where
  distinct := by
    refine (Value.everywhere_seq _).1 h.distinct (Value.ofJson j) ?_
    rw [Value.ofItems_eq_map]
    exact List.mem_map_of_mem hj
  numbers x hx := h.numbers x (Json.mem_itemLeaves.2 ⟨j, hj, hx⟩)

theorem entry (h : (Json.obj es).Proper) {b : String × Json} (hb : b ∈ es) : b.2.Proper where
  distinct := by
    refine ((Value.everywhere_map _).1 h.distinct).2 (b.1, Value.ofJson b.2) ?_
    rw [Value.ofEntries_eq_mapValues]
    exact List.mem_map_of_mem hb
  numbers x hx := h.numbers x (Json.mem_entryLeaves.2 ⟨b, hb, hx⟩)

theorem filter (h : (Json.obj es).Proper) (keep : String × Json → Bool) :
    (Json.obj (es.filter keep)).Proper where
  distinct := by
    refine (Value.everywhere_map _).2 ⟨?_, fun b hb => ?_⟩
    · have hnd := ((Value.everywhere_map _).1 h.distinct).1
      rw [Value.keys_ofEntries] at hnd ⊢
      exact hnd.sublist (List.filter_sublist.map _)
    · rw [Value.ofEntries_eq_mapValues] at hb
      obtain ⟨e, he, rfl⟩ := List.mem_map.1 hb
      exact (h.entry (List.mem_filter.1 he).1).distinct
  numbers x hx := by
    obtain ⟨b, hb, hx⟩ := Json.mem_entryLeaves.1 hx
    exact (h.entry (List.mem_filter.1 hb).1).numbers x hx

theorem null : Json.null.Proper where
  distinct := trivial
  numbers x hx := by cases List.mem_singleton.1 hx

theorem operand (h : (Json.obj es).Proper) (key : String) : ((es.get? key).getD .null).Proper := by
  cases hget : es.get? key with
  | none => exact .null
  | some j => exact h.entry (Entries.mem_of_get? hget)

end Json.Proper

variable {ω : Type}

/-! ### Equal pipelines -/

theorem stepsEqv_append {a a' b b' : Pipeline ω} (ha : stepsEqv a a' = true)
    (hb : stepsEqv b b' = true) : stepsEqv (a ++ b) (a' ++ b') = true := by
  induction a generalizing a' with
  | nil =>
    cases a' with
    | nil => exact hb
    | cons => simp [stepsEqv] at ha
  | cons s rest ih =>
    cases a' with
    | nil => simp [stepsEqv] at ha
    | cons s' rest' =>
      rw [stepsEqv, Bool.and_eq_true] at ha
      simp [stepsEqv, ha.1, ih ha.2]

theorem stepsEqv_ofPath (steps : List PathStep) :
    stepsEqv (Step.ofPath steps : Pipeline ω) (Step.ofPath steps) = true := by
  rw [Step.ofPath]
  induction steps with
  | nil => simp [stepsEqv]
  | cons step rest ih => simp [stepsEqv, Step.eqv, ih]

theorem fieldsEqv_cons {key : String} {steps steps' : Pipeline ω} {only : Option Direction}
    {fields fields' : List (Field (Step ω))} (hsteps : stepsEqv steps steps' = true)
    (hfields : fieldsEqv fields fields' = true) :
    fieldsEqv (⟨key, steps, only⟩ :: fields) (⟨key, steps', only⟩ :: fields') = true := by
  simp [fieldsEqv, hsteps, hfields]

namespace Definition

theorem fieldsEqv_spreadFields (es : Entries Json) {fields fields' : List (Field (Step ω))}
    (h : fieldsEqv fields fields' = true) :
    fieldsEqv (spreadFields es ++ fields) (spreadFields es ++ fields') = true := by
  rw [spreadFields]
  split
  · exact fieldsEqv_cons (stepsEqv_ofPath _) h
  · exact fieldsEqv_cons (stepsEqv_ofPath _) h
  · exact h

end Definition

/-! ### Compilations that match -/

/-- Wherever `x` has a result, `y` has one that is related to it. -/
def Matches {α β : Type} (R : α → β → Prop) (x : Except Fault α) (y : Except Fault β) : Prop :=
  ∀ a, x = .ok a → ∃ b, y = .ok b ∧ R a b

namespace Matches

variable {α α' β β' : Type} {R : α → α' → Prop} {S : β → β' → Prop} {x : Except Fault α}
  {y : Except Fault α'}

theorem ok {a : α} {b : α'} (h : R a b) : Matches R (.ok a) (.ok b) := by
  intro a' ha
  cases ha
  exact ⟨b, rfl, h⟩

theorem error (e : Fault) (y : Except Fault α') : Matches R (.error e) y := by
  intro a ha
  cases ha

theorem bind (h : Matches R x y) {f : α → Except Fault β} {g : α' → Except Fault β'}
    (hf : ∀ a b, R a b → Matches S (f a) (g b)) : Matches S (x >>= f) (y >>= g) := by
  intro b hb
  cases x with
  | error e => cases hb
  | ok a =>
    obtain ⟨a', rfl, hR⟩ := h a rfl
    exact hf a a' hR b hb

theorem map (h : Matches R x y) {f : α → β} {g : α' → β'} (hf : ∀ a b, R a b → S (f a) (g b)) :
    Matches S (f <$> x) (g <$> y) := by
  intro b hb
  cases x with
  | error e => cases hb
  | ok a =>
    obtain ⟨a', rfl, hR⟩ := h a rfl
    cases hb
    exact ⟨_, rfl, hf a a' hR⟩

end Matches

theorem Matches.step {x y : Except Fault (Op ω (Step ω))}
    (h : Matches (fun a b => opEqv a b = true) x y) (flags : Flags) :
    Matches (fun p q => stepsEqv p q = true) (x >>= fun op => .ok [.op op flags])
      (y >>= fun op => .ok [.op op flags]) :=
  h.bind fun a b hab => .ok (by simp [stepsEqv, Step.eqv, hab])

/-- The second vocabulary has the pipelines and the words of the first, and makes a transform
wherever the first does. It may be another one every time. -/
structure Vocabulary.Alike (voc voc' : Vocabulary ω) : Prop where
  pipelines : voc.registry.pipelines = voc'.registry.pipelines
  forwardAlias : voc.forwardAlias = voc'.forwardAlias
  reverseAlias : voc.reverseAlias = voc'.reverseAlias
  transforms : ∀ name props, Succeeds (voc.registry.createTransform name props) →
    Succeeds (voc'.registry.createTransform name props)

namespace Definition

section
variable {voc voc' : Vocabulary ω} {named named' : String → Except Fault (Pipeline ω)}

theorem restriction_alike (h : voc.Alike voc') (es : Entries Json) :
    restriction voc' es = restriction voc es := by
  have hwords : voc'.direction? = voc.direction? := by
    funext word
    simp only [Vocabulary.direction?, h.forwardAlias, h.reverseAlias]
  rw [restriction, hwords, restriction]

theorem createTransform_matches (h : voc.Alike voc') (name : String) (v : Value) :
    Matches (fun _ _ => True) (voc.registry.createTransform name v)
      (voc'.registry.createTransform name v) := by
  intro t ht
  obtain ⟨t', ht'⟩ := h.transforms name v ⟨t, ht⟩
  exact ⟨t', ht', trivial⟩

theorem call_matches (h : voc.Alike voc') (m : Marker) (operand : Json) {es : Entries Json}
    (hes : (Json.obj es).Proper) :
    Matches (fun a b => a.eqv b = true) (call voc m operand es) (call voc' m operand es) := by
  have hprops : (props es).eqv (props es) = true := (hes.filter _).eqv_self
  cases operand with
  | str text =>
    unfold call
    dsimp only
    split
    · exact .error _ _
    · refine (createTransform_matches h _ _).bind fun _ _ _ => .ok ?_
      simp [Call.eqv, hprops]
  | _ => exact .error _ _

theorem lookup_matches (operand : Json) (es : Entries Json) :
    Matches (fun a b => opEqv a b = true) (lookup operand es : Except Fault (Op ω (Step ω)))
      (lookup operand es) := by
  unfold lookup
  split
  · exact .error _ _
  · exact .error _ _
  · exact .ok (by simp [opEqv, stepsEqv_ofPath])

mutual

/-- The steps of a definition are equal if those of the named pipelines are. -/
theorem steps_matches (hvoc : voc.Alike voc')
    (hnamed : ∀ name, Matches (fun p q => stepsEqv p q = true) (named name) (named' name)) :
    ∀ {j : Json}, j.Proper →
      Matches (fun p q => stepsEqv p q = true) (steps voc named j) (steps voc' named' j)
  | .str path, _ => .ok (stepsEqv_ofPath _)
  | .null, h | .bool _, h | .int _, h | .float _, h =>
    .ok (by simp [stepsEqv, Step.constant, Step.eqv, opEqv, Source.eqv, h.eqv_self])
  | .arr items, h => joined_matches hvoc hnamed fun _ hj => h.item hj
  | .obj es, h => by
    rw [steps, steps, restriction_alike hvoc]
    cases marker? es with
    | none =>
      refine (keyedFields_matches hvoc hnamed fun _ hb => h.entry hb).bind fun _ _ hfields => .ok ?_
      have hall := fieldsEqv_spreadFields es hfields
      simp [stepsEqv, Step.eqv, shapeEqv, hall]
    | some m =>
      have hoperand := h.operand m.key
      cases m with
      | transform | filter =>
        exact ((call_matches hvoc _ _ h).map fun _ _ hab => by simpa [opEqv] using hab).step _
      | value | fixed =>
        exact Matches.step (.ok (by simp [opEqv, Source.eqv, hoperand.eqv_self])) _
      | alt | concat =>
        exact ((pipelinesAt_matches hvoc hnamed _ _ fun _ hb => h.entry hb).map
          fun _ _ hab => by simpa [opEqv] using hab).step _
      | apply =>
        simp only
        split
        · exact ((hnamed _).map fun _ _ hab => by simpa [opEqv] using hab).step _
        · exact .error _ _
      | lookup => exact (lookup_matches _ _).step _

theorem joined_matches (hvoc : voc.Alike voc')
    (hnamed : ∀ name, Matches (fun p q => stepsEqv p q = true) (named name) (named' name)) :
    ∀ {items : List Json}, (∀ j ∈ items, j.Proper) →
      Matches (fun p q => stepsEqv p q = true) (joined voc named items) (joined voc' named' items)
  | [], _ => .ok (by simp [stepsEqv])
  | j :: rest, h => by
    obtain ⟨hj, hrest⟩ := List.forall_mem_cons.1 h
    rw [joined, joined]
    exact (steps_matches hvoc hnamed hj).bind fun _ _ hfirst =>
      (joined_matches hvoc hnamed hrest).bind fun _ _ hmore => .ok (stepsEqv_append hfirst hmore)

theorem pipelines_matches (hvoc : voc.Alike voc')
    (hnamed : ∀ name, Matches (fun p q => stepsEqv p q = true) (named name) (named' name)) :
    ∀ {items : List Json}, (∀ j ∈ items, j.Proper) →
      Matches (fun ps qs => pipelinesEqv ps qs = true) (pipelines voc named items)
        (pipelines voc' named' items)
  | [], _ => .ok (by simp [pipelinesEqv])
  | j :: rest, h => by
    obtain ⟨hj, hrest⟩ := List.forall_mem_cons.1 h
    rw [pipelines, pipelines]
    exact (steps_matches hvoc hnamed hj).bind fun _ _ hfirst =>
      (pipelines_matches hvoc hnamed hrest).bind fun _ _ hmore =>
        .ok (by simp [pipelinesEqv, hfirst, hmore])

theorem pipelinesAt_matches (hvoc : voc.Alike voc')
    (hnamed : ∀ name, Matches (fun p q => stepsEqv p q = true) (named name) (named' name))
    (key : String) (e : Fault) : ∀ {es : List (String × Json)}, (∀ b ∈ es, b.2.Proper) →
      Matches (fun ps qs => pipelinesEqv ps qs = true)
        ((pipelinesAt voc named key es).getD (.error e))
        ((pipelinesAt voc' named' key es).getD (.error e))
  | [], _ => .error _ _
  | (k, .arr items) :: rest, h => by
    obtain ⟨hitems, hrest⟩ := List.forall_mem_cons.1 h
    rw [pipelinesAt, pipelinesAt]
    split
    · exact pipelines_matches hvoc hnamed fun _ hj => hitems.item hj
    · exact pipelinesAt_matches hvoc hnamed key e hrest
  | (k, .null) :: rest, h | (k, .bool _) :: rest, h | (k, .int _) :: rest, h
  | (k, .float _) :: rest, h | (k, .str _) :: rest, h | (k, .obj _) :: rest, h => by
    simp only [pipelinesAt]
    split
    · exact .error _ _
    · exact pipelinesAt_matches hvoc hnamed key e (List.forall_mem_cons.1 h).2

theorem keyedFields_matches (hvoc : voc.Alike voc')
    (hnamed : ∀ name, Matches (fun p q => stepsEqv p q = true) (named name) (named' name)) :
    ∀ {es : List (String × Json)}, (∀ b ∈ es, b.2.Proper) →
      Matches (fun fs gs => fieldsEqv fs gs = true) (keyedFields voc named es)
        (keyedFields voc' named' es)
  | [], _ => .ok (by simp [fieldsEqv])
  | (key, j) :: rest, h => by
    obtain ⟨hj, hrest⟩ := List.forall_mem_cons.1 h
    rw [keyedFields, keyedFields]
    split
    · exact keyedFields_matches hvoc hnamed hrest
    · exact (steps_matches hvoc hnamed hj).bind fun _ _ hvalue =>
        (keyedFields_matches hvoc hnamed hrest).bind fun _ _ hmore =>
          .ok (fieldsEqv_cons (stepsEqv_append hvalue (stepsEqv_ofPath _)) hmore)

end

theorem namedPipeline_matches (hvoc : voc.Alike voc') {closed : Entries Json}
    (hclosed : ∀ name d, closed.get? name = some d → d.Proper) (name : String) :
    Matches (fun p q => stepsEqv p q = true) (namedPipeline voc closed name)
      (namedPipeline voc' closed name) := by
  induction hn : closed.length using Nat.strongRecOn generalizing closed name with
  | ind n ih =>
    intro p hp
    obtain ⟨d, hd⟩ := get?_of_namedPipeline voc hp
    have hless : (closed.erase name).length < n := hn ▸ Entries.length_erase_lt hd
    have herase : ∀ other j, (closed.erase name).get? other = some j → j.Proper := by
      intro other j hj
      by_cases hother : other = name
      · subst hother
        simp at hj
      · rw [Entries.get?_erase_of_ne _ hother] at hj
        exact hclosed other j hj
    rw [namedPipeline_of_get? voc hd] at hp
    rw [namedPipeline_of_get? voc' hd]
    exact steps_matches hvoc (fun other => ih _ hless herase other rfl) (hclosed name d hd) p hp

end

end Definition

theorem compile_matches {voc voc' : Vocabulary ω} (hvoc : voc.Alike voc') {d : Json}
    (hd : d.Proper) (hnamed : ∀ b ∈ voc.registry.pipelines, b.2.Proper) :
    Matches (fun p q => p.eqv q = true) (compile voc d) (compile voc' d) := by
  have hclosed (name : String) (j : Json) (hj : voc.registry.pipelines.get? name = some j) :
      j.Proper := hnamed _ (Entries.mem_of_get? hj)
  rw [compile, compile, ← hvoc.pipelines]
  exact Definition.steps_matches hvoc (Definition.namedPipeline_matches hvoc hclosed) hd

/-- Equality of values is symmetric, and a value equals itself exactly if there is no NaN in it.
Hence every pipeline that a definition compiles to equals what it compiles to the next time,
whatever transforms the factories make then. -/
theorem compile_again :
    (∀ a b : Value, a.Distinct → b.Distinct → a.eqv b = b.eqv a) ∧
    (∀ v : Value, v.Distinct → (v.eqv v = true ↔ ∀ x ∈ v.floats, x.isNaN = false)) ∧
    ∀ (voc voc' : Vocabulary ω) (d : Json) (p : Pipeline ω), voc.Alike voc' → d.Proper →
      (∀ b ∈ voc.registry.pipelines, b.2.Proper) → compile voc d = .ok p →
        ∃ q, compile voc' d = .ok q ∧ p.eqv q = true :=
  ⟨fun _ _ => Value.eqv_comm, fun _ => Value.eqv_self_iff,
    fun _ _ _ p hvoc hd hnamed => compile_matches hvoc hd hnamed p⟩

/-- An application of a pipeline with properties and an integer out of range, compiled with two
different transforms, and two maps in which a number and the order of the keys differ. -/
theorem compile_again_tagged :
    let definition : Json := .obj [("$apply", .str "part")]
    let part : Json := .obj [("name", .obj [("$transform", .str "tag"),
      ("by", .obj [("b", .int 1), ("a", .arr [.float 2.5, .null])])]),
      ("kind", .obj [("$fixed", .int 9223372036854775808)])]
    let voc (f : Value → Value) : Vocabulary Unit :=
      { registry := { transformers := [("tag", fun _ => .ok (.pure f))]
                      pipelines := [("part", part)] } }
    let a : Value := .map [("x", .int 2), ("y", .null)]
    let b : Value := .map [("y", .null), ("x", .float 2)]
    a.eqv b = true ∧ b.eqv a = true ∧ b.eqv b = true ∧
      ∃ p q : Pipeline Unit, compile (voc id) definition = .ok p ∧
        compile (voc fun _ => .null) definition = .ok q ∧ p.eqv q = true := by
  intro definition part voc a b
  obtain ⟨hcomm, hself, hagain⟩ := compile_again (ω := Unit)
  have hb : b.Distinct := by decide
  have hab : a.eqv b = true := by decide
  have halike : (voc id).Alike (voc fun _ => .null) := by
    refine ⟨rfl, rfl, rfl, fun name props h => ?_⟩
    rw [Definition.succeeds_createTransform] at h ⊢
    by_cases hname : "tag" = name <;> simp_all [voc, Entries.get?]
  have hpart : part.Proper := by
    refine ⟨by decide, fun x hx => ?_⟩
    have hx : x = 2.5 := by
      simpa [part, Json.leaves, Json.entryLeaves, Json.itemLeaves] using hx
    subst hx
    decide
  have hdefinition : definition.Proper := by
    refine ⟨by decide, fun x hx => ?_⟩
    simp [definition, Json.leaves, Json.entryLeaves] at hx
  have hp : ∃ p, compile (voc id) definition = .ok p := by
    rw [Definition.compile_apply_eq, Definition.namedPipeline_of_get? _ rfl]
    exact ⟨_, rfl⟩
  obtain ⟨p, hp⟩ := hp
  obtain ⟨q, hq, hpq⟩ := hagain _ _ definition p halike hdefinition
    (List.forall_mem_singleton.2 hpart) hp
  have hba : b.eqv a = true := (hcomm a b (by decide) hb).symm.trans hab
  exact ⟨hab, hba, (hself b hb).2 (by decide), p, q, hp, hq, hpq⟩

end Reshape
