import Reshape.Proofs.Value.Keys
import Reshape.Proofs.Value.Reordered

/-!
# Deep merges at paths of keys

What a deep merge has at a path of keys is the deep merge of what its two sides have there, unless
the incoming side has a value on the way that is no map and replaces what was there
(`reach_deepMerge`, `reach_deepMerge_blocked`). So at every level at which both sides are maps, the
keys of the base come first and in their order, and the new ones behind them
(`deepMerge_pathwise`).
-/

namespace Reshape

namespace Value

/-! ### Paths of keys -/

theorem reach_cons (v : Value) (key : String) (path : List String) :
    v.reach (key :: path) = (v.entries.valueAt key).reach path := rfl

theorem Distinct.reach {v : Value} (hv : v.Distinct) (path : List String) :
    (v.reach path).Distinct := by
  induction path generalizing v with
  | nil => exact hv
  | cons key path ih => exact ih (hv.entries.valueAt key)

theorem reach_append (v : Value) (front back : List String) :
    v.reach (front ++ back) = (v.reach front).reach back :=
  List.foldl_append

/-- On the way to the end of a path there is a value that is no map. -/
def Blocked (v : Value) (path : List String) : Prop :=
  ∃ front, front <+: path ∧ front ≠ path ∧ (v.reach front).isAbsent = false ∧
    (v.reach front).isMap = false

section
variable {v : Value} {key : String} {path : List String}

theorem not_blocked_nil (v : Value) : ¬v.Blocked [] := by
  rintro ⟨front, hfront, hne, -⟩
  exact hne (List.prefix_nil.1 hfront)

theorem blocked_cons : v.Blocked (key :: path) ↔
    (v.isAbsent = false ∧ v.isMap = false) ∨ (v.entries.valueAt key).Blocked path := by
  constructor
  · rintro ⟨front, hfront, hne, hvalue⟩
    cases front with
    | nil => exact .inl hvalue
    | cons other front =>
      obtain ⟨rfl, hrest⟩ := List.cons_prefix_cons.1 hfront
      exact .inr ⟨front, hrest, fun h => hne (congrArg _ h), hvalue⟩
  · rintro (hvalue | ⟨front, hfront, hne, hvalue⟩)
    · exact ⟨[], List.nil_prefix, by simp, hvalue⟩
    · exact ⟨key :: front, List.cons_prefix_cons.2 ⟨rfl, hfront⟩, fun h => hne (List.cons.inj h).2,
        hvalue⟩

/-- There is nothing behind a value that is no map. -/
theorem reach_of_blocked (h : v.Blocked path) : v.reach path = .absent := by
  obtain ⟨front, ⟨back, rfl⟩, hne, -, hmap⟩ := h
  cases back with
  | nil => exact absurd (List.append_nil front).symm hne
  | cons key back => rw [reach_append, reach_of_not_isMap hmap]

end

/-! ### Merging -/

/-- One step down both sides. -/
theorem valueAt_entries_deepMerge {inc : Value} (hinc : inc.Distinct)
    (h : ¬(inc.isAbsent = false ∧ inc.isMap = false)) (base : Value) (key : String) :
    (base.deepMerge inc).entries.valueAt key =
      (base.entries.valueAt key).deepMerge (inc.entries.valueAt key) := by
  cases inc with
  | absent => rfl
  | map es' =>
    cases hbase : base.isMap with
    | true =>
      obtain ⟨es, rfl⟩ := exists_entries hbase
      rw [deepMerge_map_of_entries (.inl rfl)]
      exact Binding.valueAt_bind .merge hinc.nodup es key
    | false =>
      rw [deepMerge_of_not_isMap (.inl hbase) rfl, entries_of_not_isMap hbase]
      exact (Binding.combine_absent_left .merge _).symm
  | _ => exact absurd ⟨rfl, rfl⟩ h

theorem reach_deepMerge {path : List String} {inc : Value} (hinc : inc.Distinct)
    (h : ¬inc.Blocked path) (base : Value) :
    (base.deepMerge inc).reach path = (base.reach path).deepMerge (inc.reach path) := by
  induction path generalizing base inc with
  | nil => rfl
  | cons key path ih =>
    obtain ⟨hhere, hbelow⟩ := not_or.1 (mt blocked_cons.2 h)
    rw [reach_cons, valueAt_entries_deepMerge hinc hhere]
    exact ih (hinc.entries.valueAt key) hbelow _

theorem reach_deepMerge_blocked {path : List String} {inc : Value} (hinc : inc.Distinct)
    (h : inc.Blocked path) (base : Value) : (base.deepMerge inc).reach path = .absent := by
  induction path generalizing base inc with
  | nil => exact absurd h (not_blocked_nil inc)
  | cons key path ih =>
    by_cases hhere : inc.isAbsent = false ∧ inc.isMap = false
    · rw [deepMerge_of_not_isMap (.inr hhere.2) hhere.1, reach_of_not_isMap hhere.2]
    · rw [reach_cons, valueAt_entries_deepMerge hinc hhere]
      exact ih (hinc.entries.valueAt key) ((blocked_cons.1 h).resolve_left hhere) _

/-- Merging the same value once more changes nothing. -/
theorem deepMerge_deepMerge {base inc : Value} (hbase : base.Distinct) (hinc : inc.Distinct) :
    (base.deepMerge inc).deepMerge inc = base.deepMerge inc := by
  have hone : ∀ u ∈ [(Binding.merge, inc)], u.2.Distinct := by simpa using hinc
  exact Binding.combineAll_idem hone hbase

/-- A deep merge has at a path of keys the merge of what its sides have there, and nothing where the
incoming side has a value other than a map on the way. Where both have maps, it has the keys of the
base in their order, and behind them the new keys that the incoming side binds to present values.
Merging the same value once more changes nothing. -/
theorem deepMerge_pathwise {base inc : Value} (hbase : base.Distinct) (hinc : inc.Distinct) :
    (∀ path, (inc.Blocked path → (base.deepMerge inc).reach path = .absent) ∧
      (¬inc.Blocked path →
        (base.deepMerge inc).reach path = (base.reach path).deepMerge (inc.reach path))) ∧
    (∀ path, ∀ es es' : Entries Value, base.reach path = .map es → inc.reach path = .map es' →
      ∃ merged : Entries Value, (base.deepMerge inc).reach path = .map merged ∧
        merged.keys = es.keys ++ es'.presentKeys.removeAll es.keys) ∧
    (base.deepMerge inc).deepMerge inc = base.deepMerge inc := by
  refine ⟨fun path => ⟨fun h => reach_deepMerge_blocked hinc h base,
    fun h => reach_deepMerge hinc h base⟩, fun path es es' hes hes' => ?keys,
    deepMerge_deepMerge hbase hinc⟩
  have hopen : ¬inc.Blocked path := fun h => by cases (reach_of_blocked h).symm.trans hes'
  have hdistinct := hinc.reach path
  rw [hes'] at hdistinct
  refine ⟨Binding.merge.bind es es', ?_, Binding.keys_bind .merge es hdistinct.nodup⟩
  rw [reach_deepMerge hinc hopen, hes, hes', deepMerge_map_of_entries (.inl rfl)]
  rfl

/-- Maps that are in conflict at one key and share others. -/
theorem deepMerge_pathwise_conflict :
    ∃ base inc : Value,
      base = .map [("a", .map [("x", .null), ("y", .map [])]), ("b", .map [("z", .null)])] ∧
      inc = .map [("b", .str "s"),
        ("a", .map [("w", .seq []), ("y", .absent), ("x", .map [("v", .null)])])] ∧
      base.Distinct ∧ inc.Distinct ∧ inc.Blocked ["b", "z"] ∧ ¬inc.Blocked ["a", "x", "v"] ∧
      (base.deepMerge inc).reach ["b", "z"] = .absent ∧
      (base.deepMerge inc).reach ["a", "x", "v"] =
        (base.reach ["a", "x", "v"]).deepMerge (inc.reach ["a", "x", "v"]) ∧
      (∃ merged : Entries Value, (base.deepMerge inc).reach ["a"] = .map merged ∧
        merged.keys = ["x", "y", "w"]) ∧
      (base.deepMerge inc).deepMerge inc = base.deepMerge inc := by
  have hblocked : Blocked (.map [("b", .str "s"),
      ("a", .map [("w", .seq []), ("y", .absent), ("x", .map [("v", .null)])])]) ["b", "z"] :=
    ⟨["b"], by simp, by simp, rfl, rfl⟩
  have hopen : ¬Blocked (.map [("b", .str "s"),
      ("a", .map [("w", .seq []), ("y", .absent), ("x", .map [("v", .null)])])])
      ["a", "x", "v"] := fun h => by cases reach_of_blocked h
  obtain ⟨hreach, hkeys, hagain⟩ := @deepMerge_pathwise
    (.map [("a", .map [("x", .null), ("y", .map [])]), ("b", .map [("z", .null)])])
    (.map [("b", .str "s"),
      ("a", .map [("w", .seq []), ("y", .absent), ("x", .map [("v", .null)])])])
    (by decide) (by decide)
  exact ⟨_, _, rfl, rfl, by decide, by decide, hblocked, hopen, (hreach _).1 hblocked,
    (hreach _).2 hopen, hkeys ["a"] _ _ rfl rfl, hagain⟩

end Value

end Reshape
