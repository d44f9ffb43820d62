import Reshape.Proofs.Value.Finds

/-!
# Hereditary properties of values

A property that holds of a value and of all values inside it, such as that no map in it repeats a
key (`Distinct`). A property is `Hereditary` if it passes to the parts of a value and back, for maps
by way of `Entries.insert`. The merges keep every such property (`Hereditary.deepMerge`,
`Hereditary.shallowMerge`, `Hereditary.spreadInto`).
-/

namespace Reshape

namespace Entries

variable {α : Type}

theorem mem_of_get? {es : Entries α} {key : String} {v : α} (h : es.get? key = some v) :
    (key, v) ∈ es := by
  induction es with
  | nil => cases h
  | cons b rest ih =>
    obtain ⟨k, u⟩ := b
    by_cases hk : k = key
    · subst hk
      simp only [get?, if_true, Option.some.injEq] at h
      exact h ▸ List.mem_cons_self
    · simp only [get?, hk, if_false] at h
      exact List.mem_cons_of_mem _ (ih h)

theorem get?_of_mem {es : Entries α} (h : es.keys.Nodup) {b : String × α} (hb : b ∈ es) :
    es.get? b.1 = some b.2 := by
  induction es with
  | nil => cases hb
  | cons a rest ih =>
    obtain ⟨ha, hrest⟩ := List.nodup_cons.1 h
    rcases List.mem_cons.1 hb with rfl | hb
    · exact if_pos rfl
    · have hne : a.1 ≠ b.1 := by
        intro heq
        exact ha (List.mem_map.2 ⟨b, hb, heq.symm⟩)
      exact (if_neg hne).trans (ih hrest hb)

theorem mem_insert {es : Entries α} {key : String} {v : α} {b : String × α}
    (h : b ∈ es.insert key v) : b = (key, v) ∨ b ∈ es := by
  induction es with
  | nil => exact .inl (List.mem_singleton.1 h)
  | cons a rest ih =>
    obtain ⟨k, u⟩ := a
    rw [insert] at h
    split at h
    · exact (List.mem_cons.1 h).imp_right (List.mem_cons_of_mem _)
    · rcases List.mem_cons.1 h with rfl | h
      · exact .inr List.mem_cons_self
      · exact (ih h).imp_right (List.mem_cons_of_mem _)

end Entries

namespace Value

/-- Induction on a value by way of the items of sequences and the entries of maps. -/
@[elab_as_elim]
theorem nestedInduction {P : Value → Prop}
    (leaf : ∀ v : Value, v.isSeq = false → v.isMap = false → P v)
    (seq : ∀ items : List Value, (∀ v ∈ items, P v) → P (.seq items))
    (map : ∀ es : Entries Value, (∀ b ∈ es, P b.2) → P (.map es)) : ∀ v, P v
  | .seq items => seq items (inside items)
  | .map es => map es (below es)
  | .absent => leaf _ rfl rfl
  | .null => leaf _ rfl rfl
  | .bool _ => leaf _ rfl rfl
  | .int _ => leaf _ rfl rfl
  | .float _ => leaf _ rfl rfl
  | .str _ => leaf _ rfl rfl
  | .date _ => leaf _ rfl rfl
where
  inside : ∀ (items : List Value), ∀ v ∈ items, P v
  | [] => fun _ h => nomatch h
  | v :: rest => List.forall_mem_cons.2 ⟨nestedInduction leaf seq map v, inside rest⟩
  below : ∀ (es : List (String × Value)), ∀ b ∈ es, P b.2
  | [] => fun _ h => nomatch h
  | (_, v) :: rest => List.forall_mem_cons.2 ⟨nestedInduction leaf seq map v, below rest⟩

structure Hereditary (P : Value → Prop) : Prop where
  absent : P .absent
  seq (items : List Value) : P (.seq items) ↔ ∀ v ∈ items, P v
  empty : P (.map [])
  entry {es : Entries Value} (h : P (.map es)) : ∀ b ∈ es, P b.2
  insert {es : Entries Value} (h : P (.map es)) {v : Value} (hv : P v)
    (hpresent : v.isAbsent = false) (key : String) : P (.map (es.insert key v))

namespace Hereditary

variable {P : Value → Prop}

theorem getD (h : Hereditary P) {v : Option Value} (hv : ∀ u ∈ v, P u) : P (v.getD .absent) := by
  cases v with
  | none => exact h.absent
  | some u => exact hv u rfl

theorem get? (h : Hereditary P) {es : Entries Value} (hes : P (.map es)) {key : String} {v : Value}
    (hv : es.get? key = some v) : P v :=
  h.entry hes _ (Entries.mem_of_get? hv)

theorem toItems (h : Hereditary P) {v : Value} (hv : P v) : ∀ u ∈ v.toItems, P u := by
  cases v with
  | seq items => exact (h.seq items).1 hv
  | _ =>
    intro u hu
    cases List.mem_singleton.1 hu
    exact hv

/-! ### Merging -/

theorem settle (h : Hereditary P) (wins : Bool) {es : Entries Value} (hes : P (.map es))
    {v : Value} (hv : P v) (key : String) : P (.map (es.settle wins key v)) := by
  rw [Entries.settle]
  split
  · exact hes
  · rename_i hpresent
    have hinsert := h.insert hes hv (by simpa using hpresent) key
    split
    · exact hinsert
    · split
      · exact hinsert
      · exact hes

theorem settleAll (h : Hereditary P) (wins : Bool) {es inc : Entries Value} (hes : P (.map es))
    (hinc : ∀ b ∈ inc, P b.2) : P (.map (Entries.settleAll wins es inc)) := by
  rw [Entries.settleAll]
  induction inc generalizing es with
  | nil => exact hes
  | cons b rest ih =>
    obtain ⟨hb, hrest⟩ := List.forall_mem_cons.1 hinc
    exact ih (h.settle wins hes hb b.1) hrest

theorem shallowMerge (h : Hereditary P) {current target : Value} (hcurrent : P current)
    (htarget : P target) (prefer : Preference) : P (current.shallowMerge target prefer) := by
  unfold Value.shallowMerge
  split
  · exact h.settleAll _ hcurrent (h.entry htarget)
  all_goals first | exact hcurrent | exact htarget

theorem spreadInto (h : Hereditary P) {acc inc : Value} (hacc : P acc) (hinc : P inc)
    (prefer : Preference) : P (acc.spreadInto inc prefer) := by
  unfold Value.spreadInto
  split
  · exact h.settleAll _ hacc (h.entry hinc)
  · exact h.shallowMerge hinc hacc prefer

mutual

theorem deepMerge (h : Hereditary P) {base : Value} (hbase : P base) :
    ∀ {inc : Value}, P inc → P (base.deepMerge inc)
  | .absent, _ => hbase
  | .map inc, hinc => by
    cases base with
    | map es => exact deepMergeEntries h hbase (h.entry hinc)
    | _ => exact hinc
  | .null, hinc | .bool _, hinc | .int _, hinc | .float _, hinc | .str _, hinc | .date _, hinc
  | .seq _, hinc => hinc

theorem deepMergeEntries (h : Hereditary P) {es : Entries Value} (hes : P (.map es)) :
    ∀ {inc : List (String × Value)}, (∀ b ∈ inc, P b.2) → P (.map (Value.deepMergeEntries es inc))
  | [], _ => hes
  | (key, v) :: rest, hinc => by
    obtain ⟨hv, hrest⟩ := List.forall_mem_cons.1 hinc
    rw [deepMergeEntries_cons]
    refine deepMergeEntries h ?_ hrest
    rw [mergeBinding]
    split
    · exact hes
    · rename_i hpresent
      have hpresent : v.isAbsent = false := by simpa using hpresent
      split
      · exact h.insert hes hv hpresent key
      · rename_i old hold
        exact h.insert hes (deepMerge h (h.get? hes hold) hv) (isAbsent_deepMerge old hpresent) key

end

end Hereditary

/-! ### Properties of the maps in a value -/

mutual

/-- All maps in a value, itself included, have entries that satisfy `Q`. -/
def Everywhere (Q : Entries Value → Prop) : Value → Prop
  | seq items => EverywhereItems Q items
  | map es => Q es ∧ EverywhereEntries Q es
  | _ => True

def EverywhereItems (Q : Entries Value → Prop) : List Value → Prop
  | [] => True
  | v :: rest => v.Everywhere Q ∧ EverywhereItems Q rest

def EverywhereEntries (Q : Entries Value → Prop) : List (String × Value) → Prop
  | [] => True
  | (_, v) :: rest => v.Everywhere Q ∧ EverywhereEntries Q rest

end

mutual

instance decidableEverywhere (Q : Entries Value → Prop) [DecidablePred Q] :
    ∀ v : Value, Decidable (v.Everywhere Q)
  | seq items => decidableEverywhereItems Q items
  | map es =>
    have := decidableEverywhereEntries Q es
    inferInstanceAs (Decidable (_ ∧ _))
  | absent | null | bool _ | int _ | float _ | str _ | date _ => .isTrue trivial

instance decidableEverywhereItems (Q : Entries Value → Prop) [DecidablePred Q] :
    ∀ items : List Value, Decidable (EverywhereItems Q items)
  | [] => .isTrue trivial
  | v :: rest =>
    have := decidableEverywhere Q v
    have := decidableEverywhereItems Q rest
    inferInstanceAs (Decidable (_ ∧ _))

instance decidableEverywhereEntries (Q : Entries Value → Prop) [DecidablePred Q] :
    ∀ es : List (String × Value), Decidable (EverywhereEntries Q es)
  | [] => .isTrue trivial
  | (_, v) :: rest =>
    have := decidableEverywhere Q v
    have := decidableEverywhereEntries Q rest
    inferInstanceAs (Decidable (_ ∧ _))

end

section
variable {Q : Entries Value → Prop}

theorem everywhere_seq (items : List Value) :
    (seq items).Everywhere Q ↔ ∀ v ∈ items, v.Everywhere Q := by
  rw [Everywhere]
  induction items with
  | nil => simp [EverywhereItems]
  | cons v rest ih => rw [EverywhereItems, ih, List.forall_mem_cons]

theorem everywhere_map (es : Entries Value) :
    (map es).Everywhere Q ↔ Q es ∧ ∀ b ∈ es, b.2.Everywhere Q := by
  have hentries : EverywhereEntries Q es ↔ ∀ b ∈ es, b.2.Everywhere Q := by
    induction es with
    | nil => simp [EverywhereEntries]
    | cons b rest ih => rw [EverywhereEntries, ih, List.forall_mem_cons]
  rw [Everywhere, hentries]

theorem Everywhere.mono {Q' : Entries Value → Prop} (h : ∀ es, Q es → Q' es) {v : Value}
    (hv : v.Everywhere Q) : v.Everywhere Q' := by
  induction v using nestedInduction with
  | leaf v hseq hmap =>
    cases v with
    | seq => cases hseq
    | map => cases hmap
    | _ => trivial
  | seq items ih =>
    have hitems := (everywhere_seq items).1 hv
    exact (everywhere_seq items).2 fun v hmem => ih v hmem (hitems v hmem)
  | map es ih =>
    obtain ⟨hes, hentries⟩ := (everywhere_map es).1 hv
    exact (everywhere_map es).2 ⟨h es hes, fun b hmem => ih b hmem (hentries b hmem)⟩

/-- A property of entries that holds of none at all and that binding keys keeps is a property of
values once it is asked of all the maps in them. -/
theorem hereditary_everywhere (hempty : Q [])
    (hinsert : ∀ es, Q es → ∀ v : Value, v.isAbsent = false → ∀ key, Q (es.insert key v)) :
    Hereditary (Everywhere Q) where
  absent := trivial
  seq := everywhere_seq
  empty := (everywhere_map []).2 ⟨hempty, by simp⟩
  entry h := ((everywhere_map _).1 h).2
  insert h v hv hpresent key := by
    obtain ⟨hes, hentries⟩ := (everywhere_map _).1 h
    refine (everywhere_map _).2 ⟨hinsert _ hes v hpresent key, fun b hb => ?_⟩
    rcases Entries.mem_insert hb with rfl | hb
    · exact hv
    · exact hentries b hb

end

/-- No map in the value repeats a key, which no map of the host can. -/
def Distinct (v : Value) : Prop :=
  v.Everywhere fun es => es.keys.Nodup

instance (v : Value) : Decidable v.Distinct :=
  inferInstanceAs (Decidable (v.Everywhere _))

theorem hereditary_distinct : Hereditary Distinct :=
  hereditary_everywhere List.nodup_nil fun _ h v _ key => Entries.nodup_keys_insert h key v

theorem Distinct.nodup {es : Entries Value} (h : (map es).Distinct) : es.keys.Nodup :=
  ((everywhere_map es).1 h).1

end Value

end Reshape
