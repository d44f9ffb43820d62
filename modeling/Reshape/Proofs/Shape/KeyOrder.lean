import Reshape.Proofs.Pipeline.Flow
import Reshape.Proofs.Shape.Reapply
import Reshape.Proofs.Value.Keys

/-!
# The keys that a shape puts together

A shape takes up the results of its fields in the order in which the fields are declared, on top of
a map target. No key is lost or moved: the keys of the target come first, and then the keys that the
results bind to present values, each where it appears first, whatever the fields merge
(`runShape_keys`). What the merges have in common is that they bind one key after the other, and
each of these steps `Extends` the entries that are there (`Binding.extends_bindAll`).
-/

namespace Reshape

variable {ω : Type}

/-! ### Results that are taken up -/

section
variable {ns : Nonvalues} {es : Entries Value}

/-- A map takes up the entries of a result, if it has entries itself or else the result is a map. -/
theorem Branch.absorb_entries (b : Branch ω) {result : Value}
    (h : es ≠ [] ∨ (ns.contains result = false → result.isMap = true)) :
    b.absorb ns (.map es) result = .map (b.binding.bind es (ns.entries result)) := by
  by_cases hes : es = []
  · subst hes
    have hmap := h.resolve_left (by simp)
    cases hcontains : ns.contains result with
    | true => simp [Branch.absorb, Nonvalues.entries, hcontains, Binding.bind]
    | false =>
      cases result with
      | map inc =>
        rw [b.absorb_first (.inl rfl) hcontains]
        simp [Nonvalues.entries, hcontains, Value.entries, Value.isMap]
      | _ => cases hmap hcontains
  · exact b.absorb_map hes result

theorem absorbAll_entries {taken : List (Branch ω × Value)}
    (h : es ≠ [] ∨ ∀ r ∈ taken, ns.contains r.2 = false → r.2.isMap = true) :
    absorbAll ns (.map es) taken =
      .map (Binding.bindAll (taken.map fun r => (r.1.binding, ns.entries r.2)) es) := by
  induction taken generalizing es with
  | nil => rfl
  | cons r rest ih =>
    have hgrows := r.1.binding.grows_bind es (ns.entries r.2)
    rw [absorbAll_cons, r.1.absorb_entries (h.imp_right fun hall => hall r List.mem_cons_self)]
    exact ih (h.imp hgrows.ne_nil fun hall => (List.forall_mem_cons.1 hall).2)

/-- The keys that are taken up are those of the results that are no nonvalues. -/
theorem presentKeys_taken (ns : Nonvalues) (taken : List (Branch ω × Value)) :
    (taken.map fun r => (r.1.binding, ns.entries r.2)).flatMap (fun u => u.2.presentKeys) =
      ((taken.map Prod.snd).filter (!ns.contains ·)).flatMap fun r => r.entries.presentKeys := by
  induction taken with
  | nil => rfl
  | cons r rest ih =>
    rw [List.map_cons, List.flatMap_cons, ih, List.map_cons, List.filter_cons, Nonvalues.entries]
    cases ns.contains r.2 <;> rfl

end

/-! ### Fields -/

/-- A field, ready to run. -/
def Field.branch (f : Field (Step ω)) : Branch ω where
  merge := f.merge
  only := f.only
  run := Pipeline.runSteps f.runSteps

theorem branches_eq_map (fs : List (Field (Step ω))) : branches fs = fs.map Field.branch := by
  induction fs with
  | nil => rfl
  | cons f rest ih =>
    obtain ⟨key, steps, only⟩ := f
    rw [branches, ih, List.map_cons, Field.branch, Pipeline.runSteps, Field.runSteps]
    split <;> simp [*, stepParts_eq_map, List.map_dropLast]

namespace Shape

/-- The fields that apply in the direction in which the shape is run. -/
def applicable (sh : Shape (Step ω)) (s : State) : List (Field (Step ω)) :=
  sh.fields.filter fun f => Direction.admits f.only (sh.enter s).effective

/-- The results of these fields, run side by side on the value and without a target. -/
def fieldResults (sh : Shape (Step ω)) (v : Value) (s : State) : Task ω (List Value) :=
  Task.joinAll <| (sh.applicable s).map fun f =>
    Pipeline.runSteps f.runSteps v ((sh.enter s).withTarget none)

variable {sh : Shape (Step ω)} {s : State}

theorem activeIn_branches :
    activeIn (sh.enter s) (branches sh.fields) = (sh.applicable s).map Field.branch := by
  rw [activeIn, branches_eq_map, List.filter_map]
  rfl

theorem gather_branches (v : Value) :
    gather (branches sh.fields) v (sh.enter s) = sh.fieldResults v s := by
  rw [gather, activeIn_branches, List.map_map]
  rfl

end Shape

theorem seed_eq_map (target : Option Value) : seed target = .map (seed target).entries := by
  unfold seed
  split <;> rfl

/-- A shape that neither iterates nor is restricted to a direction makes one value of the results of
its fields. If it starts from a target with entries, or if all results that count are maps, this is
a map with the keys of the target first and then those that the results bind to present values, in
the order in which they first appear; a key that no result binds to a present value is left as the
target has it. -/
theorem runShape_keys {sh : Shape (Step ω)} (hiterate : sh.iterate = false) (honly : sh.only = none)
    {v : Value} {s : State} (hskips : (s.isNonvalue v && !sh.always) = false) :
    ∃ out : List Value → Value, runShape sh v s = (sh.fieldResults v s).map out ∧
      ∀ results, (sh.fieldResults v s).Returns results →
        (seed s.target).entries ≠ [] ∨
            (∀ r ∈ results.filter (!s.isNonvalue ·), r.isMap = true) →
          ∃ es, out results = .map es ∧
            Entries.Extends (seed s.target).entries es
              ((results.filter (!s.isNonvalue ·)).flatMap fun r => r.entries.presentKeys) := by
  refine ⟨fun results => absorbAll s.nonvalues (seed s.target)
      (((sh.applicable s).map Field.branch).zip results), ?_, fun results hresults hmaps => ?_⟩
  · rw [runShape_assemble hiterate honly hskips, assemble_eq, Shape.gather_branches,
      Shape.activeIn_branches]
    rfl
  · -- Each field has a result, so none is lost when they are paired.
    have hlength : results.length = (sh.applicable s).length := by
      simpa using ((Task.returns_joinAll ..).1 hresults).length_eq.symm
    have htaken : (((sh.applicable s).map Field.branch).zip results).map Prod.snd = results :=
      List.map_snd_zip (by simp [hlength])
    have hkeys := presentKeys_taken s.nonvalues
      (((sh.applicable s).map Field.branch).zip results)
    rw [htaken] at hkeys
    refine ⟨_, ?_, hkeys ▸ Binding.extends_bindAll _ _⟩
    dsimp only
    rw [seed_eq_map]
    refine absorbAll_entries (hmaps.imp_right fun hall r hr hpresent => hall r.2 ?_)
    exact List.mem_filter.2 ⟨(List.of_mem_zip hr).2, by simp [State.isNonvalue, hpresent]⟩

/-- A spread and two keyed results, one of them no map, on top of a target. -/
theorem runShape_keys_spread :
    ∃ (sh : Shape (Step Unit)) (v : Value) (s : State) (es : Entries Value),
      sh.iterate = false ∧ sh.only = none ∧ (s.isNonvalue v && !sh.always) = false ∧
      s.target = some (.map [("id", .null), ("keep", .str "k")]) ∧
      sh.fieldResults v s = .done [.map [("name", .str "x")], .str "x",
        .map [("tag", .absent), ("id", .null), ("z", .null)]] ∧
      runShape sh v s = .done (.map es) ∧ es.keys = ["id", "keep", "name", "z"] ∧
      es.get? "keep" = some (.str "k") := by
  obtain ⟨out, hrun, hout⟩ := @runShape_keys Unit
    { fields := [
      { key := "name", steps := [.path (.move (.field "n") false),
        .path (.move (.field "name") true)] },
      { key := "", steps := [.path (.move (.field "n") false)] },
      { key := "+", steps := [.path (.move (.field "more") false),
        .path (.move (.merge .target) true)] }] } rfl rfl
    (.map [("n", .str "x"), ("more", .map [("tag", .absent), ("id", .null), ("z", .null)])])
    { target := some (.map [("id", .null), ("keep", .str "k")]) } (by decide)
  obtain ⟨es, hes, hkeys, hkept⟩ := hout
    [.map [("name", .str "x")], .str "x", .map [("tag", .absent), ("id", .null), ("z", .null)]]
    rfl (.inl (by decide))
  refine ⟨_, _, _, es, rfl, rfl, ?skips, rfl, ?results, hrun.trans ?run, hkeys.trans ?order,
    hkept "keep" ?others⟩
  case skips => decide
  case results => rfl
  case run => exact congrArg Task.done hes
  case order => decide
  case others => decide

end Reshape
