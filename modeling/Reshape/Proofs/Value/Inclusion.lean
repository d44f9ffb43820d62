import Reshape.Proofs.Value.Hereditary

/-!
# Inclusion of values

A value includes another if it is that value, or if both are maps and it has each present entry of
the other under the same key, at every depth (`Includes`). What is included changes nothing when it
is merged in (`deepMerge_of_includes`), and on values of the host nothing else does
(`includes_of_deepMerge`).
-/

namespace Reshape

namespace Value

mutual

/-- The incoming value is there already. Nothing is asked where it is absent. -/
def Includes (v incoming : Value) : Prop :=
  match incoming with
  | absent => True
  | map inc => ∃ es, v = map es ∧ IncludesEntries es inc
  | u => v = u

def IncludesEntries (es incoming : List (String × Value)) : Prop :=
  match incoming with
  | [] => True
  | (key, value) :: rest =>
    (value.isAbsent = false → ∃ old, Entries.get? es key = some old ∧ Includes old value) ∧
      IncludesEntries es rest

end

theorem includesEntries_iff {es inc : Entries Value} : IncludesEntries es inc ↔
    ∀ b ∈ inc, b.2.isAbsent = false → ∃ old, es.get? b.1 = some old ∧ old.Includes b.2 := by
  induction inc with
  | nil => simp [IncludesEntries]
  | cons b rest ih => rw [IncludesEntries, ih, List.forall_mem_cons]

/-- A binding that changes nothing where it is found changes no entries. -/
theorem mergeBinding_eq_self {es : Entries Value} {key : String} {v : Value}
    (h : v.isAbsent = false → ∃ old, es.get? key = some old ∧ old.deepMerge v = old) :
    mergeBinding es key v = es := by
  rw [mergeBinding]
  split
  · rfl
  · rename_i hpresent
    obtain ⟨old, hold, hmerge⟩ := h (by simpa using hpresent)
    simp only [hold, hmerge]
    exact Entries.insert_get? hold

mutual

theorem deepMerge_of_includes : ∀ {v inc : Value}, v.Includes inc → v.deepMerge inc = v
  | _, .absent, _ => rfl
  | _, .map _, ⟨_, hv, h⟩ => hv ▸ congrArg map (deepMergeEntries_of_includes h)
  | _, .null, h | _, .bool _, h | _, .int _, h | _, .float _, h | _, .str _, h | _, .date _, h
  | _, .seq _, h => h.symm

theorem deepMergeEntries_of_includes : ∀ {es inc : List (String × Value)},
    IncludesEntries es inc → deepMergeEntries es inc = es
  | _, [], _ => rfl
  | es, (key, v) :: rest, ⟨hv, hrest⟩ => by
    have hentry : mergeBinding es key v = es := mergeBinding_eq_self fun hpresent => by
      obtain ⟨old, hold, hincludes⟩ := hv hpresent
      exact ⟨old, hold, deepMerge_of_includes hincludes⟩
    rw [deepMergeEntries_cons, hentry, deepMergeEntries_of_includes hrest]

end

theorem includes_of_deepMerge {inc : Value} (hinc : inc.Distinct) {v : Value}
    (h : v.deepMerge inc = v) : v.Includes inc := by
  induction inc using nestedInduction generalizing v with
  | leaf inc hseq hmap =>
    cases inc with
    | absent => trivial
    | seq => cases hseq
    | map => cases hmap
    | _ => exact h.symm
  | seq items => exact h.symm
  | map inc ih =>
    obtain ⟨hnodup, hentries⟩ := (everywhere_map inc).1 hinc
    cases v with
    | map es =>
      refine ⟨es, rfl, includesEntries_iff.2 fun b hb hpresent => ?_⟩
      have hmerged := get?_deepMergeEntries hnodup es b.1
      rw [map.inj h, Entries.get?_of_mem hnodup hb] at hmerged
      simp only [Option.elim_some, mergedEntry, hpresent, Bool.false_eq_true, if_false] at hmerged
      cases hold : Entries.get? es b.1 with
      | none => simp [hold] at hmerged
      | some old =>
        rw [hold] at hmerged
        exact ⟨old, rfl, ih b hb (hentries b hb) (Option.some.inj hmerged).symm⟩
    | _ => cases h

end Value

end Reshape
