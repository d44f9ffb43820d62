import Mathlib.Data.List.Induction
import Reshape.Proofs.Value.Hereditary

/-!
# Binding entries again

Spreads and deep merges bind the entries of one map in another, key by key, and differ in what they
make of a value that is there already (`Binding.combine`). With missing keys taken for absent ones
every key is on its own (`valueAt_bind`), and keys are only ever added, for present values
(`grows_bind`). So a sequence of such bindings that is carried out once more changes nothing
(`bindAll_idem`): key by key, the last value that replaces the others settles what comes before it,
and where none does, merging again finds what it has left (`merge_again`).
-/

namespace Reshape

/-! ### Entries, absent where there are none -/

namespace Entries

def valueAt (es : Entries Value) (key : String) : Value :=
  (es.get? key).getD .absent

theorem valueAt_of_not_mem {es : Entries Value} {key : String} (h : key ∉ es.keys) :
    es.valueAt key = .absent := by
  rw [valueAt, (get?_eq_none_iff es key).2 h]
  rfl

@[simp] theorem valueAt_insert_self (es : Entries Value) (key : String) (v : Value) :
    (es.insert key v).valueAt key = v := by
  rw [valueAt, get?_insert_self]
  rfl

theorem valueAt_insert_of_ne (es : Entries Value) {key other : String} (v : Value)
    (h : other ≠ key) : (es.insert key v).valueAt other = es.valueAt other := by
  rw [valueAt, get?_insert_of_ne es v h, valueAt]

theorem valueAt_cons (b : String × Value) (rest : Entries Value) (key : String) :
    valueAt (b :: rest) key = if b.1 = key then b.2 else valueAt rest key := by
  rw [valueAt, get?]
  split <;> rfl

/-- Entries are told apart by their keys and by the values at these. -/
theorem eq_of_keys_of_valueAt {es es' : Entries Value} (hkeys : es.keys = es'.keys)
    (hnd : es.keys.Nodup) (h : ∀ key, es.valueAt key = es'.valueAt key) : es = es' := by
  induction es generalizing es' with
  | nil => exact (List.map_eq_nil_iff.1 hkeys.symm).symm
  | cons b rest ih =>
    obtain ⟨k, v⟩ := b
    obtain _ | ⟨⟨k', v'⟩, rest'⟩ := es'
    · simp [keys] at hkeys
    · obtain ⟨rfl, hrest⟩ := List.cons.inj hkeys
      obtain ⟨hk, hndrest⟩ := List.nodup_cons.1 hnd
      have hhead : v = v' := by simpa [valueAt_cons] using h k
      have htail (key : String) : valueAt rest key = valueAt rest' key := by
        by_cases hkey : k = key
        · subst hkey
          have hk' : k ∉ Entries.keys rest' := by rwa [keys, ← hrest]
          rw [valueAt_of_not_mem hk, valueAt_of_not_mem hk']
        · simpa [valueAt_cons, hkey] using h key
      rw [hhead, ih hrest hndrest htail]

/-- Keys are only added, for present values, and present values stay present. -/
structure Grows (es es' : Entries Value) : Prop where
  keys : es.keys <+: es'.keys
  added : ∀ key ∈ es'.keys, key ∈ es.keys ∨ (es'.valueAt key).isAbsent = false
  stays : ∀ key, (es.valueAt key).isAbsent = false → (es'.valueAt key).isAbsent = false

namespace Grows

variable {es es' es'' : Entries Value}

theorem refl (es : Entries Value) : Grows es es :=
  ⟨List.prefix_rfl, fun _ => .inl, fun _ => id⟩

theorem trans (h : Grows es es') (h' : Grows es' es'') : Grows es es'' where
  keys := h.keys.trans h'.keys
  added key hkey := by
    rcases h'.added key hkey with hkey | hpresent
    · exact (h.added key hkey).imp_right (h'.stays key)
    · exact .inr hpresent
  stays key hkey := h'.stays key (h.stays key hkey)

theorem insert (es : Entries Value) (key : String) {v : Value} (hv : v.isAbsent = false) :
    Grows es (es.insert key v) where
  keys := by
    rw [keys_insert]
    split
    · exact List.prefix_rfl
    · exact List.prefix_append ..
  added other hother := by
    by_cases hkey : other = key
    · subst hkey
      exact .inr (by rw [valueAt_insert_self, hv])
    · rw [keys_insert] at hother
      split at hother
      · exact .inl hother
      · exact .inl ((List.mem_append.1 hother).resolve_right (by simpa using hkey))
  stays other hother := by
    by_cases hkey : other = key
    · subst hkey
      rw [valueAt_insert_self, hv]
    · rwa [valueAt_insert_of_ne es v hkey]

theorem ne_nil (h : Grows es es') (hes : es ≠ []) : es' ≠ [] := by
  rintro rfl
  exact hes (List.map_eq_nil_iff.1 (List.prefix_nil.1 h.keys))

/-- Entries that have grown without a change of values are the same. -/
theorem eq_of_valueAt (h : Grows es es') (hnd : es'.keys.Nodup)
    (hvalues : ∀ key, es.valueAt key = es'.valueAt key) : es = es' := by
  obtain ⟨more, hmore⟩ := h.keys
  obtain ⟨hndes, -, hapart⟩ := List.nodup_append.1 (hmore ▸ hnd)
  have hnone : more = [] := by
    refine List.eq_nil_iff_forall_not_mem.2 fun key hkey => ?_
    have hnew : key ∉ es.keys := fun hold => hapart key hold key hkey rfl
    rcases h.added key (hmore ▸ List.mem_append_right _ hkey) with hold | hpresent
    · exact hnew hold
    · rw [← hvalues, valueAt_of_not_mem hnew] at hpresent
      cases hpresent
  refine eq_of_keys_of_valueAt ?_ hndes hvalues
  rw [← hmore, hnone, List.append_nil]

end Grows

end Entries

namespace Value

theorem eq_absent {v : Value} (h : v.isAbsent = true) : v = .absent := by
  cases v <;> first | rfl | cases h

/-- Induction on a value by way of the values at the keys of maps. -/
@[elab_as_elim]
theorem entryInduction {P : Value → Prop} (leaf : ∀ v, v.isMap = false → P v)
    (map : ∀ es : Entries Value, (∀ key, P (es.valueAt key)) → P (.map es)) (v : Value) : P v := by
  induction v using nestedInduction with
  | leaf v _ hmap => exact leaf v hmap
  | seq items _ => exact leaf _ rfl
  | map es ih =>
    refine map es fun key => ?_
    rw [Entries.valueAt]
    cases hget : es.get? key with
    | none => exact leaf .absent rfl
    | some v => exact ih _ (Entries.mem_of_get? hget)

/-- The entries of a map, and none of anything else. -/
def entries : Value → Entries Value
  | .map es => es
  | _ => []

theorem Distinct.valueAt {es : Entries Value} (h : (map es).Distinct) (key : String) :
    (es.valueAt key).Distinct :=
  hereditary_distinct.getD fun _ hv => hereditary_distinct.get? h hv

theorem Distinct.entries {v : Value} (h : v.Distinct) : (map v.entries).Distinct := by
  cases v with
  | map es => exact h
  | _ => exact hereditary_distinct.empty

end Value

/-! ### Binding -/

/-- What becomes of a value that is there already. -/
inductive Binding where
  | replace
  | fill
  | merge

namespace Binding

def combine : Binding → Value → Value → Value
  | replace, old, v => if v.isAbsent then old else v
  | fill, old, v => if old.isAbsent then v else old
  | merge, old, v => old.deepMerge v

/-- Binds a key; an absent value is not bound. -/
def put (k : Binding) (es : Entries Value) (key : String) (v : Value) : Entries Value :=
  if v.isAbsent then es else es.insert key (k.combine (es.valueAt key) v)

def bind (k : Binding) (es inc : Entries Value) : Entries Value :=
  inc.foldl (fun es b => k.put es b.1 b.2) es

def ofWins (wins : Bool) : Binding :=
  if wins then replace else fill

theorem settle_eq_put (wins : Bool) (es : Entries Value) (key : String) (v : Value) :
    es.settle wins key v = (ofWins wins).put es key v := by
  rw [Entries.settle, put]
  split
  · rfl
  · rename_i hpresent
    cases wins with
    | true => cases es.get? key <;> simp [ofWins, combine, hpresent]
    | false =>
      cases hget : es.get? key with
      | none => simp [ofWins, combine, Entries.valueAt, hget, Value.isAbsent]
      | some old =>
        cases hold : old.isAbsent <;>
          simp [ofWins, combine, Entries.valueAt, hget, hold, Entries.insert_get?]

theorem settleAll_eq_bind (wins : Bool) (es inc : Entries Value) :
    Entries.settleAll wins es inc = (ofWins wins).bind es inc := by
  simp only [Entries.settleAll, bind, settle_eq_put]

theorem mergeBinding_eq_put (es : Entries Value) (key : String) (v : Value) :
    Value.mergeBinding es key v = merge.put es key v := by
  rw [Value.mergeBinding, put]
  split
  · rfl
  · cases hget : es.get? key with
    | none => cases v <;> simp_all [combine, Entries.valueAt, Value.deepMerge, Value.isAbsent]
    | some old => simp [combine, Entries.valueAt, hget]

theorem deepMergeEntries_eq_bind (es inc : Entries Value) :
    Value.deepMergeEntries es inc = merge.bind es inc := by
  induction inc generalizing es with
  | nil => rfl
  | cons b rest ih => rw [Value.deepMergeEntries_cons, mergeBinding_eq_put, ih, bind, bind,
      List.foldl_cons]

section
variable (k : Binding)

@[simp] theorem combine_absent_left (v : Value) : k.combine .absent v = v := by
  cases k with
  | replace => cases v <;> rfl
  | fill => rfl
  | merge => cases v <;> rfl

@[simp] theorem combine_absent_right (old : Value) : k.combine old .absent = old := by
  cases k with
  | replace => rfl
  | fill => cases old <;> rfl
  | merge => rfl

theorem isAbsent_combine {old v : Value} (h : old.isAbsent = false ∨ v.isAbsent = false) :
    (k.combine old v).isAbsent = false := by
  by_cases hv : v.isAbsent = true
  · cases v <;> simp_all [Value.isAbsent]
  · have hpresent : v.isAbsent = false := by simpa using hv
    cases k with
    | replace => simp [combine, hpresent]
    | fill => cases hold : old.isAbsent <;> simp [combine, hold, hpresent]
    | merge => exact Value.isAbsent_deepMerge old hpresent

theorem grows_put (es : Entries Value) (key : String) (v : Value) :
    Entries.Grows es (k.put es key v) := by
  rw [put]
  split
  · exact .refl es
  · rename_i hpresent
    exact .insert es key (isAbsent_combine k (.inr (by simpa using hpresent)))

theorem grows_bind (es inc : Entries Value) : Entries.Grows es (k.bind es inc) := by
  rw [bind]
  induction inc generalizing es with
  | nil => exact .refl es
  | cons b rest ih => exact (k.grows_put es b.1 b.2).trans (ih _)

theorem nodup_keys_put {es : Entries Value} (h : es.keys.Nodup) (key : String) (v : Value) :
    (k.put es key v).keys.Nodup := by
  rw [put]
  split
  · exact h
  · exact Entries.nodup_keys_insert h ..

theorem nodup_keys_bind {es : Entries Value} (h : es.keys.Nodup) (inc : Entries Value) :
    (k.bind es inc).keys.Nodup := by
  rw [bind]
  induction inc generalizing es with
  | nil => exact h
  | cons b rest ih => exact ih (k.nodup_keys_put h b.1 b.2)

theorem valueAt_put_self (es : Entries Value) (key : String) (v : Value) :
    (k.put es key v).valueAt key = k.combine (es.valueAt key) v := by
  rw [put]
  cases v with
  | absent => simp [Value.isAbsent]
  | _ => simp [Value.isAbsent]

theorem valueAt_put_of_ne (es : Entries Value) {key other : String} (v : Value)
    (h : other ≠ key) : (k.put es key v).valueAt other = es.valueAt other := by
  rw [put]
  split
  · rfl
  · rw [Entries.valueAt_insert_of_ne _ _ h]

/-- Binding entries combines the values key by key. -/
theorem valueAt_bind {inc : Entries Value} (hnd : inc.keys.Nodup) (es : Entries Value)
    (key : String) :
    (k.bind es inc).valueAt key = k.combine (es.valueAt key) (inc.valueAt key) := by
  rw [bind]
  induction inc generalizing es with
  | nil => simp [Entries.valueAt, Entries.get?]
  | cons b rest ih =>
    obtain ⟨name, v⟩ := b
    obtain ⟨hname, hndrest⟩ := List.nodup_cons.1 hnd
    rw [List.foldl_cons, ih hndrest, Entries.valueAt_cons]
    by_cases hkey : name = key
    · subst hkey
      rw [valueAt_put_self, Entries.valueAt_of_not_mem hname, combine_absent_right, if_pos rfl]
    · rw [valueAt_put_of_ne k es v (Ne.symm hkey), if_neg hkey]

/-- Entries with new keys and present values come behind the others as they are. -/
theorem bind_append {es inc : Entries Value} (hnd : (es.keys ++ inc.keys).Nodup)
    (hinc : ∀ b ∈ inc, b.2.isAbsent = false) : k.bind es inc = es ++ inc := by
  rw [bind]
  induction inc generalizing es with
  | nil => exact (List.append_nil es).symm
  | cons b rest ih =>
    obtain ⟨name, v⟩ := b
    obtain ⟨hv, hrest⟩ := List.forall_mem_cons.1 hinc
    have hname : name ∉ es.keys := fun hmem =>
      (List.nodup_append.1 hnd).2.2 name hmem name List.mem_cons_self rfl
    have hput : k.put es name v = es ++ [(name, v)] := by
      simp [put, hv, Entries.valueAt_of_not_mem hname, Entries.insert_of_not_mem hname]
    rw [List.foldl_cons, hput, ih (by simpa [Entries.keys] using hnd) hrest, List.append_assoc]
    rfl

theorem bind_empty {es : Entries Value} (hnd : es.keys.Nodup)
    (hes : ∀ b ∈ es, b.2.isAbsent = false) : k.bind [] es = es :=
  bind_append k hnd hes

/-- Entries that leave their values alone leave the entries alone. -/
theorem bind_eq_self {es inc : Entries Value} (hes : es.keys.Nodup) (hinc : inc.keys.Nodup)
    (h : ∀ key, k.combine (es.valueAt key) (inc.valueAt key) = es.valueAt key) :
    k.bind es inc = es := by
  refine ((k.grows_bind es inc).eq_of_valueAt (k.nodup_keys_bind hes inc) fun key => ?_).symm
  rw [valueAt_bind k hinc, h]

/-- Entries that supply nothing to the empty map supply nothing to any other. -/
theorem bind_of_empty {inc : Entries Value} (hinc : inc.keys.Nodup) (h : k.bind [] inc = [])
    {es : Entries Value} (hes : es.keys.Nodup) : k.bind es inc = es := by
  refine bind_eq_self k hes hinc fun key => ?_
  have hvalue := valueAt_bind k hinc [] key
  rw [h, Entries.valueAt_of_not_mem List.not_mem_nil, combine_absent_left] at hvalue
  rw [← hvalue, combine_absent_right]

end

end Binding

namespace Value

theorem deepMerge_map_of_entries {m : Value} (h : m.isMap = true ∨ m.isAbsent = true)
    (es : Entries Value) : (map es).deepMerge m = map (Binding.merge.bind es m.entries) := by
  cases m with
  | map inc => exact congrArg map (Binding.deepMergeEntries_eq_bind es inc)
  | absent => rfl
  | _ => simp [isMap, isAbsent] at h

/-- A value that is merged with itself stays as it is. -/
theorem deepMerge_self {v : Value} (hv : v.Distinct) : v.deepMerge v = v := by
  induction v using entryInduction with
  | leaf v hleaf =>
    cases v with
    | map es => cases hleaf
    | _ => rfl
  | map es ih =>
    rw [deepMerge_map_of_entries (.inl rfl)]
    exact congrArg map (Binding.bind_eq_self _ hv.nodup hv.nodup fun key => ih key (hv.valueAt key))

end Value

namespace Binding

theorem combine_self (k : Binding) {v : Value} (hv : v.Distinct) : k.combine v v = v := by
  cases k with
  | replace => exact ite_self v
  | fill => exact ite_self v
  | merge => exact Value.deepMerge_self hv

theorem bind_self (k : Binding) {es : Entries Value} (h : (Value.map es).Distinct) :
    k.bind es es = es :=
  bind_eq_self k h.nodup h.nodup fun key => k.combine_self (h.valueAt key)

end Binding

/-! ### Sequences of bindings -/

namespace Binding

/-- Combines a value with others, one after the other. -/
def combineAll (us : List (Binding × Value)) (v : Value) : Value :=
  us.foldl (fun old u => u.1.combine old u.2) v

def bindAll (us : List (Binding × Entries Value)) (es : Entries Value) : Entries Value :=
  us.foldl (fun es u => u.1.bind es u.2) es

section
variable {us : List (Binding × Entries Value)}

theorem grows_bindAll (us : List (Binding × Entries Value)) (es : Entries Value) :
    Entries.Grows es (bindAll us es) := by
  rw [bindAll]
  induction us generalizing es with
  | nil => exact .refl es
  | cons u us ih => exact (u.1.grows_bind es u.2).trans (ih _)

theorem nodup_keys_bindAll {es : Entries Value} (h : es.keys.Nodup)
    (us : List (Binding × Entries Value)) : (bindAll us es).keys.Nodup := by
  rw [bindAll]
  induction us generalizing es with
  | nil => exact h
  | cons u us ih => exact ih (u.1.nodup_keys_bind h u.2)

theorem valueAt_bindAll (hus : ∀ u ∈ us, u.2.keys.Nodup) (es : Entries Value) (key : String) :
    (bindAll us es).valueAt key =
      combineAll (us.map fun u => (u.1, u.2.valueAt key)) (es.valueAt key) := by
  rw [bindAll, combineAll]
  induction us generalizing es with
  | nil => rfl
  | cons u us ih =>
    obtain ⟨hu, hrest⟩ := List.forall_mem_cons.1 hus
    rw [List.foldl_cons, ih hrest, valueAt_bind u.1 hu, List.map_cons, List.foldl_cons]

/-- Entries may be bound again after others if their values may be combined again. -/
theorem bind_again (k : Binding) (hus : ∀ u ∈ us, u.2.keys.Nodup) {es inc : Entries Value}
    (hes : es.keys.Nodup) (hinc : inc.keys.Nodup)
    (h : ∀ key, k.combine (combineAll (us.map fun u => (u.1, u.2.valueAt key))
      (k.combine (es.valueAt key) (inc.valueAt key))) (inc.valueAt key) =
        k.combine (es.valueAt key) (inc.valueAt key)) :
    k.bind (bindAll us (k.bind es inc)) inc = k.bind es inc := by
  have hgrows : Entries.Grows (k.bind es inc) (k.bind (bindAll us (k.bind es inc)) inc) :=
    (grows_bindAll ..).trans (grows_bind ..)
  have hnodup : (k.bind (bindAll us (k.bind es inc)) inc).keys.Nodup :=
    nodup_keys_bind k (nodup_keys_bindAll (nodup_keys_bind k hes inc) us) inc
  refine (hgrows.eq_of_valueAt hnodup fun key => ?_).symm
  rw [valueAt_bind k hinc, valueAt_bind k hinc, valueAt_bindAll hus, valueAt_bind k hinc, h]

end

section
variable {us : List (Binding × Value)}

theorem combineAll_cons (u : Binding × Value) (us : List (Binding × Value)) (v : Value) :
    combineAll (u :: us) v = combineAll us (u.1.combine v u.2) := rfl

theorem combineAll_concat (us : List (Binding × Value)) (u : Binding × Value) (v : Value) :
    combineAll (us ++ [u]) v = u.1.combine (combineAll us v) u.2 :=
  List.foldl_append

theorem isAbsent_combineAll (us : List (Binding × Value)) {v : Value} (h : v.isAbsent = false) :
    (combineAll us v).isAbsent = false := by
  induction us generalizing v with
  | nil => exact h
  | cons u us ih => exact ih (u.1.isAbsent_combine (.inl h))

theorem distinct_combine (k : Binding) {old v : Value} (hold : old.Distinct) (hv : v.Distinct) :
    (k.combine old v).Distinct := by
  cases k with
  | replace =>
    rw [combine]
    split
    · exact hold
    · exact hv
  | fill =>
    rw [combine]
    split
    · exact hv
    · exact hold
  | merge => exact Value.hereditary_distinct.deepMerge hold hv

theorem distinct_combineAll (hus : ∀ u ∈ us, u.2.Distinct) {v : Value} (hv : v.Distinct) :
    (combineAll us v).Distinct := by
  induction us generalizing v with
  | nil => exact hv
  | cons u us ih =>
    obtain ⟨hu, hrest⟩ := List.forall_mem_cons.1 hus
    exact ih hrest (u.1.distinct_combine hv hu)

/-- Where nothing is supplied for an absent value, nothing is for any other. -/
theorem combineAll_of_absent (h : combineAll us .absent = .absent) (v : Value) :
    combineAll us v = v := by
  induction us generalizing v with
  | nil => rfl
  | cons u us ih =>
    obtain ⟨k, m⟩ := u
    rw [combineAll_cons, combine_absent_left] at h
    cases hm : m.isAbsent with
    | true =>
      obtain rfl : m = .absent := Value.eq_absent hm
      rw [combineAll_cons, combine_absent_right]
      exact ih h v
    | false =>
      have hpresent := isAbsent_combineAll us hm
      rw [h] at hpresent
      cases hpresent

/-- What is bound in a map when the map is combined with a value. -/
def within : Binding × Value → Binding × Entries Value
  | (merge, m) => (merge, m.entries)
  | (_, _) => (merge, [])

/-- A value takes the place of whatever is there, or its entries are bound in a map that is
there. -/
theorem combine_cases (u : Binding × Value) :
    (∀ x y, u.1.combine x u.2 = u.1.combine y u.2) ∨
      ∀ es, u.1.combine (.map es) u.2 = .map ((within u).1.bind es (within u).2) := by
  obtain ⟨k, m⟩ := u
  cases k with
  | replace =>
    cases hm : m.isAbsent with
    | true => exact .inr fun es => by simp [combine, hm, within, bind]
    | false => exact .inl fun x y => by simp [combine, hm]
  | fill => exact .inr fun es => rfl
  | merge =>
    by_cases hm : m.isMap = true ∨ m.isAbsent = true
    · exact .inr (Value.deepMerge_map_of_entries hm)
    · obtain ⟨hmap, hpresent⟩ : m.isMap = false ∧ m.isAbsent = false := by simpa using hm
      refine .inl fun x y => ?_
      simp only [combine, Value.deepMerge_of_not_isMap (.inr hmap) hpresent]

theorem combineAll_cases (us : List (Binding × Value)) :
    (∀ x y, combineAll us x = combineAll us y) ∨
      ∀ es, combineAll us (.map es) = .map (bindAll (us.map within) es) := by
  induction us with
  | nil => exact .inr fun es => rfl
  | cons u us ih =>
    rcases ih with hconst | hmap
    · exact .inl fun x y => hconst ..
    · rcases combine_cases u with hu | hu
      · exact .inl fun x y => congrArg (combineAll us) (hu x y)
      · exact .inr fun es => by rw [combineAll_cons, hu, hmap]; rfl

/-- Where something other than a map is left as it is, maps are as well, unless everything comes to
the same. -/
theorem combineAll_leaf {z : Value} (hz : z.isMap = false) (hpresent : z.isAbsent = false)
    (us : List (Binding × Value)) :
    (∀ x y, combineAll us x = combineAll us y) ∨ (combineAll us z).isMap = true ∨
      ∀ es, combineAll us (.map es) = .map es := by
  induction us with
  | nil => exact .inr (.inr fun es => rfl)
  | cons u us ih =>
    have hstep : (∀ x y, u.1.combine x u.2 = u.1.combine y u.2) ∨
        (∃ es, u.1.combine z u.2 = .map es) ∨
        u.1.combine z u.2 = z ∧ ∀ es, u.1.combine (.map es) u.2 = .map es := by
      obtain ⟨k, m⟩ := u
      cases k with
      | replace =>
        cases hm : m.isAbsent with
        | true => exact .inr (.inr (by simp [combine, hm]))
        | false => exact .inl fun x y => by simp [combine, hm]
      | fill => exact .inr (.inr ⟨by simp [combine, hpresent], fun es => rfl⟩)
      | merge =>
        cases m with
        | absent => exact .inr (.inr ⟨rfl, fun es => rfl⟩)
        | map inc => exact .inr (.inl ⟨inc, Value.deepMerge_of_not_isMap (.inl hz) rfl⟩)
        | _ => exact .inl fun x y => rfl
    simp only [combineAll_cons]
    rcases hstep with hconst | ⟨es, hes⟩ | ⟨hsame, hmaps⟩
    · exact .inl fun x y => congrArg (combineAll us) (hconst x y)
    · rcases combineAll_cases us with hconst | hmap
      · exact .inl fun x y => hconst ..
      · exact .inr (.inl (by rw [hes, hmap]; rfl))
    · simp only [hsame, hmaps]
      exact ih.imp_left fun hconst x y => hconst _ _

/-- A value that has been merged survives what left the value before it alone, once it is merged
again. -/
theorem merge_again {v : Value} (hv : v.Distinct) (hus : ∀ u ∈ us, u.2.Distinct) {z : Value}
    (hz : z.Distinct) (h : combineAll us z = z) :
    (combineAll us (z.deepMerge v)).deepMerge v = z.deepMerge v := by
  induction v using Value.entryInduction generalizing us z with
  | leaf v hleaf =>
    cases hpresent : v.isAbsent with
    | true =>
      obtain rfl : v = .absent := Value.eq_absent hpresent
      exact h
    | false =>
      have hreplaces (x : Value) : x.deepMerge v = v :=
        Value.deepMerge_of_not_isMap (.inr hleaf) hpresent
      rw [hreplaces, hreplaces]
  | map inc ih =>
    by_cases hconst : ∀ x y, combineAll us x = combineAll us y
    · rw [hconst _ z, h]
    · have hmaps := (combineAll_cases us).resolve_left hconst
      cases hmap : z.isMap with
      | true =>
        obtain ⟨es, rfl⟩ := Value.exists_entries hmap
        have hdistinct : ∀ u ∈ us.map within, (Value.map u.2).Distinct := by
          intro u hu
          obtain ⟨⟨k, m⟩, hm, rfl⟩ := List.mem_map.1 hu
          cases k with
          | merge => exact Value.Distinct.entries (hus _ hm)
          | _ => exact Value.hereditary_distinct.empty
        have hkeys : ∀ u ∈ us.map within, u.2.keys.Nodup := fun u hu => (hdistinct u hu).nodup
        have hfixed : bindAll (us.map within) es = es := Value.map.inj ((hmaps es).symm.trans h)
        have hagain := bind_again merge hkeys hz.nodup hv.nodup fun key => by
          have hhere := valueAt_bindAll hkeys es key
          rw [hfixed] at hhere
          refine ih key (hv.valueAt key) (fun u hu => ?_) (hz.valueAt key) hhere.symm
          obtain ⟨bound, hbound, rfl⟩ := List.mem_map.1 hu
          exact (hdistinct bound hbound).valueAt key
        rw [Value.deepMerge_map_of_entries (.inl rfl), hmaps,
          Value.deepMerge_map_of_entries (.inl rfl)]
        exact congrArg Value.map hagain
      | false =>
        have hfirst : z.deepMerge (.map inc) = .map inc :=
          Value.deepMerge_of_not_isMap (.inl hmap) rfl
        have hkept : combineAll us (.map inc) = .map inc := by
          cases hpresent : z.isAbsent with
          | true =>
            obtain rfl : z = .absent := Value.eq_absent hpresent
            exact combineAll_of_absent h _
          | false =>
            rcases (combineAll_leaf hmap hpresent us).resolve_left hconst with hbuilt | hsame
            · rw [h, hmap] at hbuilt
              cases hbuilt
            · exact hsame inc
        rw [hfirst, hkept, Value.deepMerge_self hv]

theorem combine_again (k : Binding) {v : Value} (hv : v.Distinct) (hus : ∀ u ∈ us, u.2.Distinct)
    {z : Value} (hz : z.Distinct) (h : combineAll us z = z) :
    k.combine (combineAll us (k.combine z v)) v = k.combine z v := by
  cases k with
  | replace =>
    cases hpresent : v.isAbsent <;> simp [combine, hpresent, h]
  | fill =>
    cases hpresent : z.isAbsent with
    | true =>
      obtain rfl : z = .absent := Value.eq_absent hpresent
      rw [combine_absent_left, combineAll_of_absent h, combine_self fill hv]
    | false => simp [combine, hpresent, h]
  | merge => exact merge_again hv hus hz h

/-- Combining with the same values once more changes nothing. -/
theorem combineAll_idem (hus : ∀ u ∈ us, u.2.Distinct) {v : Value} (hv : v.Distinct) :
    combineAll us (combineAll us v) = combineAll us v := by
  induction us using List.reverseRecOn with
  | nil => rfl
  | append_singleton us u ih =>
    obtain ⟨hrest, hu⟩ := List.forall_mem_append.1 hus
    rw [combineAll_concat, combineAll_concat]
    exact combine_again u.1 (hu u List.mem_cons_self) hrest (distinct_combineAll hrest hv)
      (ih hrest)

end

/-- Binding the same entries once more changes nothing. -/
theorem bindAll_idem {us : List (Binding × Entries Value)}
    (hus : ∀ u ∈ us, (Value.map u.2).Distinct) {es : Entries Value}
    (hes : (Value.map es).Distinct) : bindAll us (bindAll us es) = bindAll us es := by
  have hkeys : ∀ u ∈ us, u.2.keys.Nodup := fun u hu => (hus u hu).nodup
  have hnodup := nodup_keys_bindAll (nodup_keys_bindAll hes.nodup us) us
  refine ((grows_bindAll us _).eq_of_valueAt hnodup fun key => ?_).symm
  rw [valueAt_bindAll hkeys (bindAll us es), valueAt_bindAll hkeys]
  refine (combineAll_idem (fun u hu => ?_) (hes.valueAt key)).symm
  obtain ⟨bound, hbound, rfl⟩ := List.mem_map.1 hu
  exact (hus bound hbound).valueAt key

theorem bind_idem (k : Binding) {es inc : Entries Value} (hes : (Value.map es).Distinct)
    (hinc : (Value.map inc).Distinct) : k.bind (k.bind es inc) inc = k.bind es inc := by
  have hone : ∀ u ∈ [(k, inc)], (Value.map u.2).Distinct := by simpa using hinc
  exact bindAll_idem hone hes

end Binding

end Reshape
