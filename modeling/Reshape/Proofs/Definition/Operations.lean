import Reshape.Definition.Compile
import Reshape.Proofs.Value.Hereditary

/-!
# The operations in a definition

Compiling a definition meets the operations in it: those among the items of arrays, under the keys
of shapes and among the alternatives and parts of other operations, but not those that an operation
holds as data. A definition compiles if and only if all of them are sound (`succeeds_steps`): their
operands are of the right kind, the names in them are known, and factories accept their properties.
-/

namespace Reshape

variable {ω : Type}

def Succeeds {α : Type} (x : Except Fault α) : Prop :=
  ∃ a, x = .ok a

section
variable {α β γ : Type} {x : Except Fault α} {y : Except Fault β}

@[simp] theorem succeeds_ok (a : α) : Succeeds (.ok a) :=
  ⟨a, rfl⟩

@[simp] theorem not_succeeds_error (e : Fault) : ¬Succeeds (.error e : Except Fault α) := by
  rintro ⟨a, ha⟩
  cases ha

@[simp] theorem succeeds_map (f : α → β) : Succeeds (f <$> x) ↔ Succeeds x := by
  cases x with
  | error e => exact iff_of_false (not_succeeds_error e) (not_succeeds_error e)
  | ok a => exact iff_of_true ⟨f a, rfl⟩ ⟨a, rfl⟩

@[simp] theorem succeeds_bind_ok (f : α → β) :
    Succeeds (x >>= fun a => .ok (f a)) ↔ Succeeds x :=
  succeeds_map f

theorem succeeds_bind_both (f : α → β → γ) :
    Succeeds (x >>= fun a => y >>= fun b => .ok (f a b)) ↔ Succeeds x ∧ Succeeds y := by
  cases x with
  | error e => exact iff_of_false (not_succeeds_error e) fun h => not_succeeds_error e h.1
  | ok a => exact (succeeds_bind_ok (f a)).trans (and_iff_right ⟨a, rfl⟩).symm

end

namespace Definition

/-! ### Operations that are met -/

/-- The marker and the bindings of an operation that is met where the definition is compiled. -/
inductive Meets : Json → Marker → Entries Json → Prop
  | here {es : Entries Json} {m : Marker} (hm : marker? es = some m) : Meets (.obj es) m es
  | item {items : List Json} {j : Json} {m : Marker} {es : Entries Json} (hj : j ∈ items)
    (h : Meets j m es) : Meets (.arr items) m es
  | field {fields : Entries Json} {key : String} {j : Json} {m : Marker} {es : Entries Json}
    (hshape : marker? fields = none) (hj : (key, j) ∈ fields) (hkey : isDollarKey key = false)
    (h : Meets j m es) : Meets (.obj fields) m es
  | part {outer : Entries Json} {a : Marker} {items : List Json} {j : Json} {m : Marker}
    {es : Entries Json} (ha : marker? outer = some a) (hparts : a = .alt ∨ a = .concat)
    (hitems : outer.get? a.key = some (.arr items)) (hj : j ∈ items) (h : Meets j m es) :
    Meets (.obj outer) m es

section
variable {m : Marker} {es : Entries Json}

theorem meets_arr {items : List Json} : Meets (.arr items) m es ↔ ∃ j ∈ items, Meets j m es := by
  refine ⟨fun h => ?_, ?_⟩
  · cases h with
    | item hj h => exact ⟨_, hj, h⟩
  · rintro ⟨j, hj, h⟩
    exact .item hj h

theorem meets_shape {fields : Entries Json} (hshape : marker? fields = none) :
    Meets (.obj fields) m es ↔
      ∃ b ∈ fields, isDollarKey b.1 = false ∧ Meets b.2 m es := by
  refine ⟨fun h => ?_, ?_⟩
  · cases h with
    | here hm => simp [hshape] at hm
    | field _ hj hkey h => exact ⟨_, hj, hkey, h⟩
    | part ha => simp [hshape] at ha
  · rintro ⟨b, hb, hkey, h⟩
    exact .field hshape hb hkey h

theorem meets_operation {outer : Entries Json} {a : Marker} (ha : marker? outer = some a) :
    Meets (.obj outer) m es ↔ (m = a ∧ es = outer) ∨ (a = .alt ∨ a = .concat) ∧
      ∃ items, outer.get? a.key = some (.arr items) ∧ ∃ j ∈ items, Meets j m es := by
  refine ⟨fun h => ?_, ?_⟩
  · cases h with
    | here hm => exact .inl ⟨Option.some.inj (hm.symm.trans ha), rfl⟩
    | field hshape => simp [hshape] at ha
    | part ha' hparts hitems hj h =>
      obtain rfl := Option.some.inj (ha'.symm.trans ha)
      exact .inr ⟨hparts, _, hitems, _, hj, h⟩
  · rintro (⟨rfl, rfl⟩ | ⟨hparts, items, hitems, j, hj, h⟩)
    · exact .here ha
    · exact .part ha hparts hitems hj h

end

/-! ### Sound operations -/

/-- The operand under `key` is the name of a transformer, blanks around it apart, which is
registered and accepts the properties of the operation. -/
def NamesTransformer (voc : Vocabulary ω) (es : Entries Json) (key : String) : Prop :=
  ∃ text factory, es.get? key = some (.str text) ∧ Text.trim text.toList ≠ [] ∧
    voc.registry.transformers.get? (String.ofList (Text.trim text.toList)) = some factory ∧
    Succeeds (factory (props es))

/-- The operand of the marker is of the kind that the marker takes, and the names in it are known to
the vocabulary, those of pipelines as `known` says. -/
def Sound (voc : Vocabulary ω) (known : String → Prop) (es : Entries Json) : Marker → Prop
  | .transform => NamesTransformer voc es "$transform"
  | .filter => NamesTransformer voc es "$filter"
  | .value | .fixed => True
  | .alt => ∃ items, es.get? "$alt" = some (.arr items)
  | .apply => ∃ name, es.get? "$apply" = some (.str name) ∧ known name
  | .lookup => ∃ array key, es.get? "$lookup" = some (.str array) ∧ es.get? "path" = some (.str key)
  | .concat => ∃ items, es.get? "$concat" = some (.arr items)

theorem Sound.imp {voc : Vocabulary ω} {known known' : String → Prop} {es : Entries Json}
    {m : Marker} (h : Sound voc known es m)
    (himp : ∀ name, m = .apply → es.get? "$apply" = some (.str name) → known name → known' name) :
    Sound voc known' es m := by
  cases m with
  | apply =>
    obtain ⟨name, hname, hknown⟩ := h
    exact ⟨name, hname, himp name rfl hname hknown⟩
  | _ => exact h

/-! ### Definitions that compile -/

theorem sizeOf_item_lt {items : List Json} {j : Json} (hj : j ∈ items) :
    sizeOf j < sizeOf (Json.arr items) := by
  have hitem := List.sizeOf_lt_of_mem hj
  simp only [Json.arr.sizeOf_spec]
  omega

theorem sizeOf_entry_lt {es : Entries Json} {b : String × Json} (hb : b ∈ es) :
    sizeOf b.2 < sizeOf (Json.obj es) := by
  have hentry : sizeOf b < sizeOf es := List.sizeOf_lt_of_mem hb
  obtain ⟨key, j⟩ := b
  simp only [Prod.mk.sizeOf_spec, Json.obj.sizeOf_spec] at hentry ⊢
  omega

section
variable {voc : Vocabulary ω} {named : String → Except Fault (Pipeline ω)}

theorem succeeds_joined (items : List Json) :
    Succeeds (joined voc named items) ↔ ∀ j ∈ items, Succeeds (steps voc named j) := by
  induction items with
  | nil => simp [joined]
  | cons j rest ih => rw [joined, succeeds_bind_both, ih, List.forall_mem_cons]

theorem succeeds_pipelines (items : List Json) :
    Succeeds (pipelines voc named items) ↔ ∀ j ∈ items, Succeeds (steps voc named j) := by
  induction items with
  | nil => simp [pipelines]
  | cons j rest ih => rw [pipelines, succeeds_bind_both, ih, List.forall_mem_cons]

theorem succeeds_keyedFields (es : Entries Json) :
    Succeeds (keyedFields voc named es) ↔
      ∀ b ∈ es, isDollarKey b.1 = false → Succeeds (steps voc named b.2) := by
  induction es with
  | nil => simp [keyedFields]
  | cons b rest ih =>
    obtain ⟨key, j⟩ := b
    rw [keyedFields, List.forall_mem_cons]
    split
    · rename_i hkey
      simp [ih, hkey]
    · rename_i hkey
      rw [succeeds_bind_both, ih, imp_iff_right (Bool.eq_false_iff.2 hkey)]

theorem succeeds_pipelinesAt (key : String) (e : Fault) (es : Entries Json) :
    Succeeds ((pipelinesAt voc named key es).getD (.error e)) ↔
      ∃ items, es.get? key = some (.arr items) ∧ ∀ j ∈ items, Succeeds (steps voc named j) := by
  induction es with
  | nil => simp [pipelinesAt, Entries.get?]
  | cons b rest ih =>
    obtain ⟨k, j⟩ := b
    by_cases hk : k = key
    · cases j <;> simp [pipelinesAt, Entries.get?, hk, succeeds_pipelines]
    · cases j <;> simp [pipelinesAt, Entries.get?, hk, ih]

theorem succeeds_createTransform (name : String) (v : Value) :
    Succeeds (voc.registry.createTransform name v) ↔
      ∃ factory, voc.registry.transformers.get? name = some factory ∧ Succeeds (factory v) := by
  rw [Registry.createTransform, Registry.transformer]
  cases voc.registry.transformers.get? name <;> simp

theorem succeeds_call (m : Marker) (es : Entries Json) :
    Succeeds (call voc m ((es.get? m.key).getD .null) es) ↔ NamesTransformer voc es m.key := by
  unfold call NamesTransformer
  cases es.get? m.key with
  | none => simp
  | some operand =>
    cases operand with
    | str text =>
      by_cases htext : Text.trim text.toList = [] <;> simp [htext, succeeds_createTransform]
    | _ => simp

theorem succeeds_lookup (es : Entries Json) :
    Succeeds (lookup ((es.get? "$lookup").getD .null) es : Except Fault (Op ω (Step ω))) ↔
      ∃ array key, es.get? "$lookup" = some (.str array) ∧ es.get? "path" = some (.str key) := by
  rw [lookup]
  cases es.get? "$lookup" with
  | none => simp [Json.str?]
  | some array =>
    cases array with
    | str array =>
      cases es.get? "path" with
      | none => simp [Json.str?]
      | some key => cases key <;> simp [Json.str?]
    | _ => simp [Json.str?]

/-- An operation compiles if it is sound and the definitions compile that are parts of it. -/
theorem succeeds_operation {es : Entries Json} {m : Marker} (hm : marker? es = some m) :
    Succeeds (steps voc named (.obj es)) ↔
      Sound voc (fun name => Succeeds (named name)) es m ∧
        (m = .alt ∨ m = .concat → ∀ items, es.get? m.key = some (.arr items) →
          ∀ j ∈ items, Succeeds (steps voc named j)) := by
  rw [steps]
  simp only [hm]
  cases m with
  | transform | filter =>
    rw [succeeds_bind_ok, succeeds_map, succeeds_call]
    simp [Sound, Marker.key]
  | value | fixed => simp [Sound]
  | alt | concat =>
    rw [succeeds_bind_ok, succeeds_map, succeeds_pipelinesAt]
    simp only [Sound, Marker.key]
    refine ⟨?_, ?_⟩
    · rintro ⟨items, hitems, hparts⟩
      refine ⟨⟨items, hitems⟩, fun _ items' hitems' => ?_⟩
      rw [hitems] at hitems'
      cases hitems'
      exact hparts
    · rintro ⟨⟨items, hitems⟩, hparts⟩
      exact ⟨items, hitems, hparts (by simp) items hitems⟩
  | apply =>
    simp only [Sound, Marker.key]
    cases es.get? "$apply" with
    | none => simp
    | some operand => cases operand <;> simp
  | lookup =>
    rw [succeeds_bind_ok]
    simp [Marker.key, succeeds_lookup, Sound]

theorem succeeds_shape {es : Entries Json} (hshape : marker? es = none) :
    Succeeds (steps voc named (.obj es)) ↔
      ∀ b ∈ es, isDollarKey b.1 = false → Succeeds (steps voc named b.2) := by
  rw [steps]
  simp only [hshape]
  rw [succeeds_bind_ok, succeeds_keyedFields]

/-- A definition compiles exactly if all operations that are met in it are sound. -/
theorem succeeds_steps (j : Json) : Succeeds (steps voc named j) ↔
    ∀ m es, Meets j m es → Sound voc (fun name => Succeeds (named name)) es m := by
  induction hn : sizeOf j using Nat.strongRecOn generalizing j with
  | ind n ih =>
    subst hn
    cases j with
    | arr items =>
      have ih (j : Json) (hj : j ∈ items) := ih _ (sizeOf_item_lt hj) j rfl
      rw [steps, succeeds_joined]
      refine ⟨fun hitems m es h => ?_, fun h j hj =>
        (ih j hj).2 fun m es hj' => h m es (.item hj hj')⟩
      obtain ⟨j, hj, h⟩ := meets_arr.1 h
      exact (ih j hj).1 (hitems j hj) m es h
    | obj fields =>
      cases hm : marker? fields with
      | none =>
        have ih (b : String × Json) (hb : b ∈ fields) := ih _ (sizeOf_entry_lt hb) b.2 rfl
        rw [succeeds_shape hm]
        refine ⟨fun hfields m es h => ?_, fun h b hb hkey =>
          (ih b hb).2 fun m es hb' => h m es (.field hm hb hkey hb')⟩
        obtain ⟨b, hb, hkey, h⟩ := (meets_shape hm).1 h
        exact (ih b hb).1 (hfields b hb hkey) m es h
      | some a =>
        have ih (items : List Json) (hitems : Entries.get? fields a.key = some (.arr items))
            (j : Json) (hj : j ∈ items) :=
          ih _ (Nat.lt_trans (sizeOf_item_lt hj) (sizeOf_entry_lt (Entries.mem_of_get? hitems))) j
            rfl
        rw [succeeds_operation hm]
        refine ⟨?_, fun h => ⟨h a fields (.here hm), fun ha items hitems j hj =>
          (ih items hitems j hj).2 fun m es hj' => h m es (.part hm ha hitems hj hj')⟩⟩
        rintro ⟨hsound, hparts⟩ m es h
        rcases (meets_operation hm).1 h with ⟨rfl, rfl⟩ | ⟨ha, items, hitems, j, hj, h⟩
        · exact hsound
        · exact (ih items hitems j hj).1 (hparts ha items hitems j hj) m es h
    | _ =>
      refine iff_of_true ⟨_, rfl⟩ fun m es h => ?_
      cases h

end

end Definition

end Reshape
