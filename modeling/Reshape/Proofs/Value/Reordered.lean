import Mathlib.Data.List.Forall2
import Reshape.Proofs.Value.Rebind

/-!
# The order of keys

Two values are `Reordered` if they are the same up to the order of the keys of maps, at every level.
Deep merges cannot tell such values apart (`Reordered.deepMerge`). Values that are `Compatible`
never meet at a path of keys unless both are maps there, so it does not matter which of them is
merged first (`deepMerge_comm`): not even on top of a value that is in conflict with both, since
each of them replaces what it meets in it. Hence a list of such values can be merged in any order
(`foldl_deepMerge_perm`).
-/

namespace Reshape

namespace Value

/-- The same value, up to the order of keys at every level. -/
inductive Reordered : Value → Value → Prop
  | refl (v : Value) : Reordered v v
  | seq {items items' : List Value} (hlength : items.length = items'.length)
    (h : ∀ i, Reordered (items.getD i .absent) (items'.getD i .absent)) :
      Reordered (.seq items) (.seq items')
  | map {es es' : Entries Value} (hkeys : es.keys.Perm es'.keys) (hnd : es.keys.Nodup)
    (h : ∀ key, Reordered (es.valueAt key) (es'.valueAt key)) : Reordered (.map es) (.map es')

namespace Reordered

variable {v v' v'' : Value}

theorem trans (h : Reordered v v') (h' : Reordered v' v'') : Reordered v v'' := by
  induction h generalizing v'' with
  | refl v => exact h'
  | seq hlength hitems ih =>
    cases h' with
    | refl => exact .seq hlength hitems
    | seq hlength' h' => exact .seq (hlength.trans hlength') fun i => ih i (h' i)
  | map hkeys hnd hvalues ih =>
    cases h' with
    | refl => exact .map hkeys hnd hvalues
    | map hkeys' _ h' => exact .map (hkeys.trans hkeys') hnd fun key => ih key (h' key)

theorem isAbsent_eq (h : Reordered v v') : v.isAbsent = v'.isAbsent := by
  cases h <;> rfl

theorem of_forall₂ {items items' : List Value} (h : List.Forall₂ Reordered items items') :
    Reordered (.seq items) (.seq items') := by
  refine .seq h.length_eq fun i => ?_
  induction h generalizing i with
  | nil => exact .refl _
  | cons hv _ ih =>
    cases i with
    | zero => exact hv
    | succ i => exact ih i

/-- Maps that have grown from entries with the same keys are the same up to the order of keys, if
their values are. -/
theorem of_grows {base base' es es' : Entries Value} (hbase : base.keys.Perm base'.keys)
    (hgrows : base.Grows es) (hgrows' : base'.Grows es') (hnd : es.keys.Nodup)
    (hnd' : es'.keys.Nodup) (h : ∀ key, Reordered (es.valueAt key) (es'.valueAt key)) :
    Reordered (.map es) (.map es') := by
  have hmem {base es : Entries Value} (hgrows : base.Grows es) (key : String) :
      key ∈ es.keys ↔ key ∈ base.keys ∨ (es.valueAt key).isAbsent = false := by
    refine ⟨hgrows.added key, fun hkey => hkey.elim (hgrows.keys.subset ·) fun hpresent => ?_⟩
    by_contra hmissing
    rw [Entries.valueAt_of_not_mem hmissing] at hpresent
    cases hpresent
  refine .map ((List.perm_ext_iff_of_nodup hnd hnd').2 fun key => ?_) hnd h
  rw [hmem hgrows, hmem hgrows', hbase.mem_iff, (h key).isAbsent_eq]

/-- A deep merge cannot tell the order of keys that it starts from. -/
theorem deepMerge (h : Reordered v v') (hv : v.Distinct) (hv' : v'.Distinct) {inc : Value}
    (hinc : inc.Distinct) : Reordered (v.deepMerge inc) (v'.deepMerge inc) := by
  induction inc using entryInduction generalizing v v' with
  | leaf inc hleaf =>
    cases habsent : inc.isAbsent with
    | true => rwa [eq_absent habsent]
    | false =>
      rw [deepMerge_of_not_isMap (.inr hleaf) habsent, deepMerge_of_not_isMap (.inr hleaf) habsent]
      exact .refl inc
  | map inc ih =>
    cases h with
    | refl => exact .refl _
    | seq => exact .refl _
    | @map es es' hkeys hnd h =>
      simp only [Value.deepMerge, Binding.deepMergeEntries_eq_bind]
      refine of_grows hkeys (Binding.grows_bind ..) (Binding.grows_bind ..)
        (Binding.nodup_keys_bind _ hv.nodup inc) (Binding.nodup_keys_bind _ hv'.nodup inc)
        fun key => ?_
      rw [Binding.valueAt_bind _ hinc.nodup, Binding.valueAt_bind _ hinc.nodup]
      exact ih key (h key) (hv.valueAt key) (hv'.valueAt key) (hinc.valueAt key)

end Reordered

/-! ### Paths of keys -/

/-- The value at a path of keys through maps, absent where there is none. -/
def reach (v : Value) (path : List String) : Value :=
  path.foldl (fun v key => v.entries.valueAt key) v

/-- At every path of keys at which both values have a value, both have a map. -/
def Compatible (a b : Value) : Prop :=
  ∀ path, (a.reach path).isAbsent = false → (b.reach path).isAbsent = false →
    (a.reach path).isMap = true ∧ (b.reach path).isMap = true

/-- No map at a path of keys binds a key to absence. -/
def Solid (v : Value) : Prop :=
  ∀ path, ∀ b ∈ (v.reach path).entries, b.2.isAbsent = false

theorem reach_absent (path : List String) : reach .absent path = .absent := by
  induction path with
  | nil => rfl
  | cons key rest ih => exact ih

theorem entries_of_not_isMap {v : Value} (h : v.isMap = false) : v.entries = [] := by
  cases v <;> first | rfl | cases h

theorem reach_of_not_isMap {v : Value} (h : v.isMap = false) (key : String) (path : List String) :
    v.reach (key :: path) = .absent := by
  rw [reach, List.foldl_cons, entries_of_not_isMap h]
  exact reach_absent path

namespace Compatible

variable {a b : Value}

theorem symm (h : Compatible a b) : Compatible b a :=
  fun path hb ha => (h path ha hb).symm

theorem absent (b : Value) : Compatible .absent b := by
  intro path ha
  rw [reach_absent] at ha
  cases ha

theorem valueAt {es es' : Entries Value} (h : Compatible (.map es) (.map es')) (key : String) :
    Compatible (es.valueAt key) (es'.valueAt key) :=
  fun path => h (key :: path)

/-- Only the keys of one side need to be looked at. -/
theorem map {es es' : Entries Value}
    (h : ∀ key ∈ es.keys, Compatible (es.valueAt key) (es'.valueAt key)) :
    Compatible (.map es) (.map es') := by
  intro path
  cases path with
  | nil => exact fun _ _ => ⟨rfl, rfl⟩
  | cons key path =>
    by_cases hkey : key ∈ es.keys
    · exact h key hkey path
    · have hmissing := Compatible.absent (es'.valueAt key)
      rw [← Entries.valueAt_of_not_mem hkey] at hmissing
      exact hmissing path

end Compatible

namespace Solid

theorem valueAt {es : Entries Value} (h : Solid (.map es)) (key : String) :
    Solid (es.valueAt key) :=
  fun path => h (key :: path)

theorem of_not_isMap {v : Value} (h : v.isMap = false) : Solid v := by
  intro path b hb
  have hnone : (v.reach path).entries = [] := by
    cases path with
    | nil => exact entries_of_not_isMap h
    | cons key path =>
      rw [reach_of_not_isMap h]
      rfl
  rw [hnone] at hb
  cases hb

theorem map {es : Entries Value} (h : ∀ b ∈ es, b.2.isAbsent = false ∧ b.2.Solid) :
    Solid (.map es) := by
  intro path
  cases path with
  | nil => exact fun b hb => (h b hb).1
  | cons key path =>
    have hvalue : Solid (es.valueAt key) := by
      rw [Entries.valueAt]
      cases hget : es.get? key with
      | none => exact of_not_isMap rfl
      | some v => exact (h _ (Entries.mem_of_get? hget)).2
    exact hvalue path

end Solid

/-! ### Merging in another order -/

/-- A solid map is taken over as it is where there is no map. -/
theorem deepMerge_solid {es : Entries Value} (hsolid : Solid (.map es))
    (hdistinct : (map es).Distinct) {base : Value} (hbase : base.isMap = false) :
    base.deepMerge (.map es) = (map []).deepMerge (.map es) := by
  have hempty : Binding.merge.bind [] es = es :=
    Binding.bind_empty _ hdistinct.nodup (hsolid [])
  rw [deepMerge_of_not_isMap (.inl hbase) rfl, deepMerge, Binding.deepMergeEntries_eq_bind, hempty]

/-- Entries can be merged in any order if their values can, key by key. -/
theorem bind_comm {es inc inc' : Entries Value} (hes : es.keys.Nodup) (hinc : inc.keys.Nodup)
    (hinc' : inc'.keys.Nodup)
    (h : ∀ key, (((es.valueAt key).deepMerge (inc.valueAt key)).deepMerge
        (inc'.valueAt key)).Reordered
      (((es.valueAt key).deepMerge (inc'.valueAt key)).deepMerge (inc.valueAt key))) :
    (map (Binding.merge.bind (Binding.merge.bind es inc) inc')).Reordered
      (map (Binding.merge.bind (Binding.merge.bind es inc') inc)) := by
  have hgrows (inc inc' : Entries Value) :
      es.Grows (Binding.merge.bind (Binding.merge.bind es inc) inc') :=
    (Binding.grows_bind ..).trans (Binding.grows_bind ..)
  have hnd (inc inc' : Entries Value) :
      (Binding.merge.bind (Binding.merge.bind es inc) inc').keys.Nodup :=
    Binding.nodup_keys_bind _ (Binding.nodup_keys_bind _ hes inc) inc'
  refine .of_grows (.refl _) (hgrows inc inc') (hgrows inc' inc) (hnd inc inc') (hnd inc' inc)
    fun key => ?_
  simp only [Binding.valueAt_bind _ hinc, Binding.valueAt_bind _ hinc']
  exact h key

/-- Of two compatible values it does not matter which is merged first. -/
theorem deepMerge_comm {a b : Value} (h : Compatible a b) (ha : a.Distinct) (hb : b.Distinct)
    (hasolid : a.Solid) (hbsolid : b.Solid) {base : Value} (hbase : base.Distinct) :
    ((base.deepMerge a).deepMerge b).Reordered ((base.deepMerge b).deepMerge a) := by
  induction b using entryInduction generalizing a base with
  | leaf b hleaf =>
    -- Two compatible values that are there are maps, so here one of them is absent.
    cases haabsent : a.isAbsent with
    | true =>
      rw [eq_absent haabsent]
      exact .refl _
    | false =>
      cases hbabsent : b.isAbsent with
      | true =>
        rw [eq_absent hbabsent]
        exact .refl _
      | false => cases hleaf.symm.trans (h [] haabsent hbabsent).2
  | map inc' ih =>
    cases haabsent : a.isAbsent with
    | true =>
      rw [eq_absent haabsent]
      exact .refl _
    | false =>
      obtain ⟨inc, rfl⟩ := exists_entries (h [] haabsent rfl).1
      have hmerged {es : Entries Value} (hes : (map es).Distinct) :
          (((map es).deepMerge (map inc)).deepMerge (map inc')).Reordered
            (((map es).deepMerge (map inc')).deepMerge (map inc)) := by
        simp only [deepMerge, Binding.deepMergeEntries_eq_bind]
        exact bind_comm hes.nodup ha.nodup hb.nodup fun key =>
          ih key (h.valueAt key) (ha.valueAt key) (hb.valueAt key) (hasolid.valueAt key)
            (hbsolid.valueAt key) (hes.valueAt key)
      cases hmap : base.isMap with
      | true =>
        obtain ⟨es, rfl⟩ := exists_entries hmap
        exact hmerged hbase
      | false =>
        rw [deepMerge_solid hasolid ha hmap, deepMerge_solid hbsolid hb hmap]
        exact hmerged hereditary_distinct.empty

theorem foldl_deepMerge_congr {vs : List Value} (hvs : ∀ v ∈ vs, v.Distinct) {acc acc' : Value}
    (h : acc.Reordered acc') (hacc : acc.Distinct) (hacc' : acc'.Distinct) :
    (vs.foldl deepMerge acc).Reordered (vs.foldl deepMerge acc') := by
  induction vs generalizing acc acc' with
  | nil => exact h
  | cons v rest ih =>
    obtain ⟨hv, hrest⟩ := List.forall_mem_cons.1 hvs
    exact ih hrest (h.deepMerge hacc hacc' hv) (hereditary_distinct.deepMerge hacc hv)
      (hereditary_distinct.deepMerge hacc' hv)

/-- Values each two of which are compatible can be merged in any order. -/
theorem foldl_deepMerge_perm {vs vs' : List Value} (hperm : vs.Perm vs')
    (hcompatible : vs.Pairwise Compatible) (hdistinct : ∀ v ∈ vs, v.Distinct)
    (hsolid : ∀ v ∈ vs, v.Solid) {base : Value} (hbase : base.Distinct) :
    (vs.foldl deepMerge base).Reordered (vs'.foldl deepMerge base) := by
  induction hperm generalizing base with
  | nil => exact .refl base
  | cons v _ ih =>
    obtain ⟨hv, hrest⟩ := List.forall_mem_cons.1 hdistinct
    exact ih (List.pairwise_cons.1 hcompatible).2 hrest (List.forall_mem_cons.1 hsolid).2
      (hereditary_distinct.deepMerge hbase hv)
  | swap a b rest =>
    obtain ⟨hb, ha, hrest⟩ := by simpa using hdistinct
    obtain ⟨hbsolid, hasolid, -⟩ := by simpa using hsolid
    have hab : Compatible b a := (List.pairwise_cons.1 hcompatible).1 a List.mem_cons_self
    refine foldl_deepMerge_congr hrest (deepMerge_comm hab hb ha hbsolid hasolid hbase) ?_ ?_
    · exact hereditary_distinct.deepMerge (hereditary_distinct.deepMerge hbase hb) ha
    · exact hereditary_distinct.deepMerge (hereditary_distinct.deepMerge hbase ha) hb
  | trans hfirst _ ih ih' =>
    exact (ih hcompatible hdistinct hsolid hbase).trans
      (ih' (hfirst.pairwise hcompatible Compatible.symm)
        (fun v hv => hdistinct v (hfirst.mem_iff.2 hv))
        (fun v hv => hsolid v (hfirst.mem_iff.2 hv)) hbase)

end Value

end Reshape
