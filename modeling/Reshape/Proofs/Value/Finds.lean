import Reshape.Path.Extract
import Reshape.Value.Merge

/-!
# Finding values in merged maps

`Finds v q r` follows the names `q` through maps only: `r` is the value at their end, or nothing if
a name on the way is missing. A deep merge of two values finds along a path what one of them finds
there, when the other finds nothing (`Finds.deepMerge`). So a map that is merged together from
values at paths, no one of which leads to another, holds each value at its path and nothing
elsewhere (`Holds.deepMerge`).
-/

namespace Reshape

/-! ### The entries of a deep merge -/

namespace Value

/-- What a deep merge makes of an entry that an incoming one meets. -/
def mergedEntry (old : Option Value) (v : Value) : Option Value :=
  if v.isAbsent then old else some (old.elim v (·.deepMerge v))

/-- The entries after the merge of one incoming binding. -/
def mergeBinding (base : Entries Value) (key : String) (v : Value) : Entries Value :=
  if v.isAbsent then base
  else match base.get? key with
    | none => base.insert key v
    | some old => base.insert key (old.deepMerge v)

theorem deepMergeEntries_cons (base : Entries Value) (key : String) (v : Value)
    (rest : Entries Value) :
    deepMergeEntries base ((key, v) :: rest) = deepMergeEntries (mergeBinding base key v) rest :=
  rfl

theorem get?_mergeBinding_self (base : Entries Value) (key : String) (v : Value) :
    (mergeBinding base key v).get? key = mergedEntry (base.get? key) v := by
  simp only [mergeBinding, mergedEntry]
  split
  · rfl
  · split <;> simp_all

theorem get?_mergeBinding_of_ne (base : Entries Value) {key other : String} (v : Value)
    (h : other ≠ key) : (mergeBinding base key v).get? other = base.get? other := by
  simp only [mergeBinding]
  split
  · rfl
  · split <;> rw [Entries.get?_insert_of_ne _ _ h]

theorem nodup_keys_mergeBinding {base : Entries Value} (h : base.keys.Nodup) (key : String)
    (v : Value) : (mergeBinding base key v).keys.Nodup := by
  simp only [mergeBinding]
  split
  · exact h
  · split <;> exact Entries.nodup_keys_insert h key _

theorem get?_deepMergeEntries {inc : Entries Value} (hnd : inc.keys.Nodup) (base : Entries Value)
    (key : String) :
    Entries.get? (deepMergeEntries base inc) key =
      (inc.get? key).elim (base.get? key) (mergedEntry (base.get? key)) := by
  induction inc generalizing base with
  | nil => rfl
  | cons b rest ih =>
    obtain ⟨k, v⟩ := b
    obtain ⟨hk, hrest⟩ := List.nodup_cons.1 hnd
    have hkrest : Entries.get? rest k = none := (Entries.get?_eq_none_iff rest k).2 hk
    rw [deepMergeEntries_cons, ih hrest, Entries.get?]
    by_cases hkey : k = key
    · subst hkey
      rw [if_pos rfl, hkrest]
      exact get?_mergeBinding_self base k v
    · rw [if_neg hkey, get?_mergeBinding_of_ne base v (Ne.symm hkey)]

theorem nodup_keys_deepMergeEntries {base : Entries Value} (h : base.keys.Nodup)
    (inc : Entries Value) : (Entries.keys (deepMergeEntries base inc)).Nodup := by
  induction inc generalizing base with
  | nil => exact h
  | cons b rest ih => exact ih (nodup_keys_mergeBinding h b.1 b.2)

/-- Unless two maps meet, the incoming value replaces what is there. -/
theorem deepMerge_of_not_isMap {base inc : Value} (h : base.isMap = false ∨ inc.isMap = false)
    (hinc : inc.isAbsent = false) : base.deepMerge inc = inc := by
  cases inc <;> cases base <;> simp_all [deepMerge, isMap, isAbsent]

theorem isAbsent_deepMerge (base : Value) {inc : Value} (h : inc.isAbsent = false) :
    (base.deepMerge inc).isAbsent = false := by
  cases inc <;> cases base <;> simp_all [deepMerge, isAbsent]

end Value

/-! ### Finding -/

namespace Value

/-- What a path of names reads. -/
def readNames (v : Value) (names : List String) : Value :=
  names.foldl (fun v name => Path.extractField name v) v

/-- A value below a path of names, in maps with a single entry. -/
def nest (names : List String) (v : Value) : Value :=
  names.foldr (fun name v => .map [(name, v)]) v

@[simp] theorem nest_nil (v : Value) : nest [] v = v := rfl

@[simp] theorem nest_cons (name : String) (names : List String) (v : Value) :
    nest (name :: names) v = .map [(name, nest names v)] := rfl

theorem isAbsent_nest {v : Value} (h : v.isAbsent = false) (names : List String) :
    (nest names v).isAbsent = false := by
  cases names with
  | nil => exact h
  | cons name names => rfl

theorem readNames_cons (v : Value) (name : String) (names : List String) :
    v.readNames (name :: names) = (Path.extractField name v).readNames names := rfl

theorem readNames_append (v : Value) (p q : List String) :
    v.readNames (p ++ q) = (v.readNames p).readNames q :=
  List.foldl_append

@[simp] theorem readNames_absent (names : List String) : absent.readNames names = absent := by
  induction names with
  | nil => rfl
  | cons name names ih => simpa [readNames_cons, Path.extractField] using ih

end Value

inductive Finds : Value → List String → Option Value → Prop
  | here (v : Value) : Finds v [] (some v)
  | missing {es : Entries Value} {name : String} {rest : List String} (hnd : es.keys.Nodup)
      (h : es.get? name = none) : Finds (.map es) (name :: rest) none
  | down {es : Entries Value} {name : String} {rest : List String} {u : Value} {r : Option Value}
      (hnd : es.keys.Nodup) (h : es.get? name = some u) (hu : u.isAbsent = false)
      (hrest : Finds u rest r) : Finds (.map es) (name :: rest) r

namespace Finds

open Value

/-- A merge finds what one side finds and the other does not. -/
theorem deepMerge {base inc : Value} {q : List String} {a b : Option Value} (ha : Finds base q a)
    (hb : Finds inc q b) (h : a = none ∨ b = none) : Finds (base.deepMerge inc) q (a.or b) := by
  induction ha generalizing inc b with
  | here v =>
    cases hb with
    | here => simp at h
  | missing hnd hnone =>
    cases hb with
    | missing hnd' hnone' =>
      refine .missing (nodup_keys_deepMergeEntries hnd _) ?_
      rw [get?_deepMergeEntries hnd', hnone']
      exact hnone
    | down hnd' hsome' hu' hrest' =>
      refine .down (nodup_keys_deepMergeEntries hnd _) ?_ hu' hrest'
      rw [get?_deepMergeEntries hnd', hsome']
      simp [mergedEntry, hu', hnone]
  | down hnd hsome hu hrest ih =>
    cases hb with
    | missing hnd' hnone' =>
      rw [Option.or_none]
      refine .down (nodup_keys_deepMergeEntries hnd _) ?_ hu hrest
      rw [get?_deepMergeEntries hnd', hnone']
      exact hsome
    | down hnd' hsome' hu' hrest' =>
      refine .down (nodup_keys_deepMergeEntries hnd _) ?_ (isAbsent_deepMerge _ hu') (ih hrest' h)
      rw [get?_deepMergeEntries hnd', hsome']
      simp [mergedEntry, hu', hsome]

/-- Reading arrives at what is found. -/
theorem readNames {v : Value} {q : List String} {r : Option Value} (h : Finds v q r) :
    v.readNames q = r.getD .absent := by
  induction h with
  | here v => rfl
  | missing hnd h => simp [Value.readNames_cons, Path.extractField, h]
  | down hnd h hu hrest ih => simpa [Value.readNames_cons, Path.extractField, h] using ih

end Finds

/-! ### Holding values at paths -/

/-- Neither path leads to the other. -/
def Apart (p q : List String) : Prop :=
  ¬p <+: q ∧ ¬q <+: p

instance (p q : List String) : Decidable (Apart p q) :=
  inferInstanceAs (Decidable (_ ∧ _))

namespace Apart

variable {p q : List String}

theorem symm (h : Apart p q) : Apart q p :=
  ⟨h.2, h.1⟩

theorem ne_nil (h : Apart p q) : p ≠ [] := by
  rintro rfl
  exact h.1 List.nil_prefix

theorem append_left (front : List String) : Apart (front ++ p) (front ++ q) ↔ Apart p q := by
  simp [Apart]

end Apart

/-- A map with the given results at the given paths: it finds every one of them, and nothing on
paths apart from them. -/
structure Holds (m : Value) (results : List (List String × Option Value)) : Prop where
  finds : ∀ e ∈ results, Finds m e.1 e.2
  misses : ∀ q, q ≠ [] → (∀ e ∈ results, Apart q e.1) → Finds m q none

namespace Holds

variable {m m' : Value} {results results' : List (List String × Option Value)}

theorem leaf (v : Value) : Holds v [([], some v)] where
  finds := by
    intro e he
    cases List.mem_singleton.1 he
    exact .here v
  misses := by
    intro q _ h
    exact absurd List.nil_prefix (h _ List.mem_cons_self).2

/-- The empty map holds nothing, at any path but the empty one. -/
theorem empty (h : ∀ e ∈ results, e.1 ≠ [] ∧ e.2 = none) : Holds (.map []) results where
  finds := by
    rintro ⟨q, r⟩ he
    obtain ⟨hq, rfl⟩ := h _ he
    cases q with
    | nil => exact absurd rfl hq
    | cons name rest => exact .missing List.nodup_nil rfl
  misses := by
    intro q hq _
    cases q with
    | nil => exact absurd rfl hq
    | cons name rest => exact .missing List.nodup_nil rfl

/-- A merge brings together results at paths that are apart. -/
theorem deepMerge (h : Holds m results) (h' : Holds m' results')
    (hne : ∀ e ∈ results ++ results', e.1 ≠ [])
    (hapart : (results ++ results').Pairwise fun e e' => Apart e.1 e'.1) :
    Holds (m.deepMerge m') (results ++ results') where
  finds := by
    obtain ⟨-, -, hcross⟩ := List.pairwise_append.1 hapart
    intro e he
    rcases List.mem_append.1 he with hleft | hright
    · have hother := h'.misses e.1 (hne e he) (hcross e hleft)
      simpa using (h.finds e hleft).deepMerge hother (.inr rfl)
    · have hother := h.misses e.1 (hne e he) fun e' he' => (hcross e' he' e hright).symm
      simpa using hother.deepMerge (h'.finds e hright) (.inl rfl)
  misses := by
    intro q hq h''
    have hleft := h.misses q hq fun e he => h'' e (List.mem_append_left _ he)
    have hright := h'.misses q hq fun e he => h'' e (List.mem_append_right _ he)
    exact hleft.deepMerge hright (.inl rfl)

private theorem nest_cons (h : Holds m results) (hne : results ≠ []) (hm : m.isAbsent = false)
    (name : String) : Holds (.map [(name, m)]) (results.map fun e => (name :: e.1, e.2)) where
  finds := by
    intro e he
    obtain ⟨e', he', rfl⟩ := List.mem_map.1 he
    exact .down (by simp [Entries.keys]) (by simp [Entries.get?]) hm (h.finds e' he')
  misses := by
    intro q hq hapart
    obtain ⟨name', rest, rfl⟩ := List.exists_cons_of_ne_nil hq
    by_cases hname : name = name'
    · subst hname
      have hrest : ∀ e ∈ results, Apart rest e.1 := fun e he =>
        (Apart.append_left [name]).1 (hapart _ (List.mem_map_of_mem he))
      obtain ⟨e, he⟩ := List.exists_mem_of_ne_nil _ hne
      exact .down (by simp [Entries.keys]) (by simp [Entries.get?]) hm
        (h.misses rest (hrest e he).ne_nil hrest)
    · exact .missing (by simp [Entries.keys]) (by simp [Entries.get?, hname])

/-- Results below a path. -/
theorem nest (h : Holds m results) (hne : results ≠ []) (hm : m.isAbsent = false)
    (names : List String) :
    Holds (m.nest names) (results.map fun e => (names ++ e.1, e.2)) := by
  induction names with
  | nil => simpa using h
  | cons name names ih =>
    have hcons := ih.nest_cons (by simpa using hne) (Value.isAbsent_nest hm names) name
    simpa [Function.comp_def] using hcons

end Holds

end Reshape
