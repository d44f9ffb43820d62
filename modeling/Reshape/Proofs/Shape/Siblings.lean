import Mathlib.Data.List.Perm.Basic
import Reshape.Proofs.Shape.KeyOrder
import Reshape.Proofs.Value.Reordered

/-!
# Sibling fields

The fields of a shape see neither each other's results nor the target, so all that their order can
decide is the order in which the results are taken up. Where the results are `Harmonious`, that is
the order of keys and nothing else: the shape with its fields in any other order comes to the same
value up to the order of keys (`run_siblings`). Harmony is asked wherever the fields are run, for an
iterating shape at each of the items that it does not skip (`Shape.visits`).
-/

namespace Reshape

variable {ω : Type}

/-! ### Fields of pure ingredients -/

/-- A call or a source whose tasks are pure. -/
def Ingredient.IsPure : Ingredient ω → Prop
  | call c => ∀ v s, (c.transform.call v s).IsPure
  | source src _ => src.produce.IsPure
  | shape _ => True

/-- Fields run like themselves in every simulation that their ingredients respect. -/
theorem Simulation.runs_branches {S : Simulation ω} {fs : List (Field (Step ω))}
    (h : ∀ i ∈ fieldsIngredients fs, ∀ reading, S.Respects reading {} i) {b : Branch ω}
    (hb : b ∈ Reshape.branches fs) : S.Runs false b.run b.run := by
  have hbranches : List.Forall₂ (S.Branches false) (Reshape.branches fs)
      (Reshape.branches (rewireFields {} false fs)) := Simulation.branches h
  rw [rewireFields_id] at hbranches
  exact (List.forall₂_same.1 hbranches b hb).run

section
variable {fs : List (Field (Step ω))}

theorem isPure_branch (hpure : ∀ i ∈ fieldsIngredients fs, i.IsPure) {b : Branch ω}
    (hb : b ∈ branches fs) (v : Value) (s : State) : (b.run v s).IsPure := by
  have hruns := Simulation.runs_branches
    (S := .within (ω := ω) (.both .settling .prompting) Value.hereditary_true) ?respects hb
  case respects =>
    refine Simulation.within_respects _ _ (fun c hc v s _ _ => ?call)
      fun source fixed hsource _ v s => ?source
    case call =>
      obtain ⟨hprompt, result, hsettles⟩ := hpure _ hc v s
      exact ⟨⟨result, hsettles, hsettles, fun _ _ => trivial⟩, hprompt, fun _ _ => trivial⟩
    case source =>
      refine ⟨?_, source.isPrompt_runValue fixed v s, fun _ _ => trivial⟩
      obtain ⟨-, result, hsettles⟩ := hpure _ hsource
      rw [Op.runValue]
      split
      · exact TaskRelation.settling.done trivial
      · exact ⟨result, hsettles, hsettles, fun _ _ => trivial⟩
  obtain ⟨⟨result, hsettles, -⟩, hprompt, -⟩ := hruns v s s trivial ⟨rfl, s.satisfies_true⟩
  exact ⟨hprompt, result, hsettles⟩

/-- The results that the fields can return are what they yield. -/
theorem yields_gather (hpure : ∀ i ∈ fieldsIngredients fs, i.IsPure) {v : Value} {s : State}
    {results : List Value} (h : (gather (branches fs) v s).Returns results) :
    List.Forall₂ Task.Yields
      ((activeIn s (branches fs)).map fun b => b.run v (s.withTarget none)) results := by
  refine Task.yields_all (fun t ht => ?_) ((Task.returns_joinAll ..).1 h)
  obtain ⟨b, hb, rfl⟩ := List.mem_map.1 ht
  exact isPure_branch hpure (List.mem_filter.1 hb).1 v _

end

/-! ### Tasks that yield related results -/

/-- Both tasks yield a result, and the results are related. -/
def Task.Related {α β : Type} (R : α → β → Prop) (t : Task ω α) (u : Task ω β) : Prop :=
  ∃ a b, t.Yields a ∧ u.Yields b ∧ R a b

namespace Task.Related

variable {α β γ : Type} {R : α → α → Prop}

theorem done {a b : α} (h : R a b) : Related R (.done a : Task ω α) (.done b) :=
  ⟨a, b, .done a, .done b, h⟩

theorem map {Q : β → β → Prop} {f : α → β} (hf : ∀ a b, R a b → Q (f a) (f b)) {t u : Task ω α}
    (h : Related R t u) : Related Q (t.map f) (u.map f) := by
  obtain ⟨a, b, ht, hu, hab⟩ := h
  exact ⟨f a, f b, ht.map f, hu.map f, hf a b hab⟩

theorem forItems {f g : γ → Task ω α} {as : List γ} (h : ∀ a ∈ as, Related R (f a) (g a)) :
    Related (List.Forall₂ R) (forItems f as) (forItems g as) := by
  induction as with
  | nil => exact done .nil
  | cons a rest ih =>
    obtain ⟨ha, hrest⟩ := List.forall_mem_cons.1 h
    obtain ⟨b, c, hf, hg, hbc⟩ := ha
    obtain ⟨bs, cs, hfs, hgs, hbcs⟩ := ih hrest
    exact ⟨b :: bs, c :: cs, hf.bind (hfs.map (b :: ·)), hg.bind (hgs.map (c :: ·)), .cons hbc hbcs⟩

end Task.Related

/-! ### Results in another order -/

/-- Results that do not get in each other's way. Those that are no nonvalues are maps without an
absent entry, and two of them never meet at a path of keys, unless both have a map there. -/
structure Harmonious (ns : Nonvalues) (results : List Value) : Prop where
  maps : ∀ r ∈ results, ns.contains r = false → r.isMap = true
  solid : ∀ r ∈ results, ns.contains r = false → r.Solid
  /-- No map repeats a key, as none of the host does. -/
  distinct : ∀ r ∈ results, ns.contains r = false → r.Distinct
  compatible : (results.filter (!ns.contains ·)).Pairwise Value.Compatible

section
variable {ns : Nonvalues}

/-- Maps that are the results of fields without a closing merge are merged in their order. -/
theorem absorbAll_keyed {taken : List (Branch ω × Value)} (hmerge : ∀ r ∈ taken, r.1.merge = none)
    (hmaps : ∀ r ∈ taken, ns.contains r.2 = false → r.2.isMap = true) (acc : Value) :
    absorbAll ns acc taken =
      ((taken.map Prod.snd).filter (!ns.contains ·)).foldl Value.deepMerge acc := by
  induction taken generalizing acc with
  | nil => rfl
  | cons r rest ih =>
    obtain ⟨hr, hrest⟩ := List.forall_mem_cons.1 hmerge
    obtain ⟨hmap, hmaps⟩ := List.forall_mem_cons.1 hmaps
    have habsorb : r.1.absorb ns acc r.2 =
        if ns.contains r.2 then acc else acc.deepMerge r.2 := by
      simp only [Branch.absorb, hr]
      cases hcontains : ns.contains r.2 with
      | true => rfl
      | false => cases acc <;> simp [hmap hcontains]
    rw [absorbAll_cons, ih hrest hmaps, List.map_cons, List.filter_cons, habsorb]
    cases ns.contains r.2 <;> rfl

theorem absorbAll_zip {bs : List (Branch ω)} (hmerge : ∀ b ∈ bs, b.merge = none)
    {results : List Value} (hlength : results.length = bs.length)
    (hmaps : ∀ r ∈ results, ns.contains r = false → r.isMap = true) (acc : Value) :
    absorbAll ns acc (bs.zip results) =
      (results.filter (!ns.contains ·)).foldl Value.deepMerge acc := by
  have hresults : (bs.zip results).map Prod.snd = results := List.map_snd_zip (by simp [hlength])
  rw [absorbAll_keyed (fun r hr => hmerge r.1 (List.of_mem_zip hr).1)
    fun r hr => hmaps r.2 (List.of_mem_zip hr).2, hresults]

end

/-- Harmonious results of fields are put together to the same value, up to the order of keys, in
whatever order the fields are. -/
theorem assemble_siblings {bs bs' : List (Branch ω)} (hperm : bs.Perm bs')
    (hmerge : ∀ b ∈ bs, b.merge = none) {v : Value} {s : State} {results : List Value}
    (hresults : List.Forall₂ Task.Yields
      ((activeIn s bs).map fun b => b.run v (s.withTarget none)) results)
    (hharmony : Harmonious s.nonvalues results) (htarget : ∀ t ∈ s.target, t.Distinct) :
    Task.Related Value.Reordered (assemble bs v s) (assemble bs' v s) := by
  have hactive : (activeIn s bs).Perm (activeIn s bs') := hperm.filter _
  obtain ⟨results', hresults', hpermuted⟩ :=
    List.perm_comp_forall₂ (hactive.map fun b => b.run v (s.withTarget none)).symm hresults
  have hactive_mem {b : Branch ω} (hb : b ∈ activeIn s bs) : b.merge = none :=
    hmerge b (List.mem_filter.1 hb).1
  rw [assemble_eq, assemble_eq]
  refine ⟨_, _, (Task.Yields.joinAll hresults).map _, (Task.Yields.joinAll hresults').map _, ?_⟩
  rw [absorbAll_zip (fun b hb => hactive_mem hb) (by simpa using hresults.length_eq.symm)
      hharmony.maps,
    absorbAll_zip (fun b hb => hactive_mem (hactive.mem_iff.2 hb))
      (by simpa using hresults'.length_eq.symm)
      fun r hr => hharmony.maps r (hpermuted.mem_iff.1 hr)]
  have hpresent : ∀ r ∈ results.filter (!s.nonvalues.contains ·),
      r ∈ results ∧ s.nonvalues.contains r = false := by simp
  exact Value.foldl_deepMerge_perm (hpermuted.symm.filter _) hharmony.compatible
    (fun r hr => hharmony.distinct r (hpresent r hr).1 (hpresent r hr).2)
    (fun r hr => hharmony.solid r (hpresent r hr).1 (hpresent r hr).2)
    (Value.hereditary_distinct.seed htarget)

/-! ### Runs -/

theorem fieldsHaveAlways_perm {fs fs' : List (Field (Step ω))} (h : fs.Perm fs') :
    fieldsHaveAlways fs = fieldsHaveAlways fs' := by
  induction h with
  | nil => rfl
  | cons f _ ih =>
    obtain ⟨key, steps, only⟩ := f
    rw [fieldsHaveAlways, fieldsHaveAlways, ih]
  | swap f g rest =>
    obtain ⟨key, steps, only⟩ := f
    obtain ⟨key', steps', only'⟩ := g
    simp only [fieldsHaveAlways, Bool.or_left_comm]
  | trans _ _ ih ih' => exact ih.trans ih'

/-- The values that the fields are run on in a run of the shape by itself, each with the state
around the shape there. -/
def Shape.visits (sh : Shape (Step ω)) (v : Value) (s : State) : List (Value × State) :=
  if s.isNonvalue v && !Pipeline.hasAlways [.shape sh] then []
  else if !Direction.admits sh.only s.effective then []
  else
    let runs := fun item => !(s.isNonvalue item && !sh.always)
    match sh.iterate, v with
    | true, .seq items =>
      (items.filter runs).map fun item => (item, s.pushContext (.seq items))
    | _, v => if runs v then [(v, s)] else []

section
variable {sh : Shape (Step ω)} {fields : List (Field (Step ω))}

theorem hasAlways_siblings (hperm : sh.fields.Perm fields) :
    Pipeline.hasAlways [.shape { sh with fields }] = Pipeline.hasAlways [.shape sh] := by
  obtain ⟨fs, iterate, flip, noDefaults, always, only⟩ := sh
  simp only [Pipeline.hasAlways, stepsHaveAlways, Step.hasAlways, shapeHasAlways,
    fieldsHaveAlways_perm hperm]

/-- A value that the fields are run on, unless the shape skips it. -/
theorem visit_siblings (hperm : sh.fields.Perm fields) (hmerge : ∀ f ∈ sh.fields, f.merge = none)
    (hpure : ∀ i ∈ Pipeline.ingredients [.shape sh], i.IsPure) {v : Value} {s : State}
    (hresults : (s.isNonvalue v && !sh.always) = false →
      ∃ results, (sh.fieldResults v s).Returns results ∧ Harmonious s.nonvalues results)
    {target : Option Value} (htarget : ∀ t ∈ target, t.Distinct) :
    Task.Related Value.Reordered
      (if s.isNonvalue v && !sh.always then .done v
        else assemble (branches sh.fields) v ((sh.enter s).withTarget target))
      (if s.isNonvalue v && !sh.always then .done v
        else assemble (branches fields) v ((sh.enter s).withTarget target)) := by
  have hfields : ∀ i ∈ fieldsIngredients sh.fields, i.IsPure := by
    obtain ⟨fs, iterate, flip, noDefaults, always, only⟩ := sh
    exact fun i hi => hpure i (List.mem_append_left _ (List.mem_cons_of_mem _ hi))
  split
  · exact .done (.refl v)
  · rename_i hruns
    obtain ⟨results, hreturns, hharmony⟩ := hresults (Bool.eq_false_iff.2 hruns)
    rw [← Shape.gather_branches] at hreturns
    refine assemble_siblings ?_ ?_ (yields_gather hfields hreturns) hharmony htarget
    · rw [branches_eq_map, branches_eq_map]
      exact hperm.map _
    · rw [branches_eq_map]
      exact List.forall_mem_map.2 hmerge

/-- The gate of the run and the restriction of the shape do not depend on the fields, and each item
of an iteration is visited by itself. -/
theorem start_siblings (hperm : sh.fields.Perm fields) (hmerge : ∀ f ∈ sh.fields, f.merge = none)
    (hpure : ∀ i ∈ Pipeline.ingredients [.shape sh], i.IsPure) {v : Value} {s : State}
    (hs : ∀ t ∈ s.target, t.Distinct)
    (hresults : ∀ a ∈ sh.visits v s, ∃ results, (sh.fieldResults a.1 a.2).Returns results ∧
      Harmonious s.nonvalues results) :
    Task.Related Value.Reordered (Pipeline.start [.shape sh] v s)
      (Pipeline.start [.shape { sh with fields }] v s) := by
  rw [Pipeline.start, Pipeline.start, hasAlways_siblings hperm, runSteps_shape, runSteps_shape]
  rw [Shape.visits] at hresults
  split
  · exact .done (.refl _)
  · rename_i hgate
    rw [if_neg hgate] at hresults
    unfold runShape Shape.run
    dsimp only
    split
    · exact .done (.refl v)
    · rename_i hadmits
      rw [if_neg hadmits] at hresults
      split
      · rename_i items hiterate
        simp only [hiterate] at hresults
        refine .map (fun _ _ h => .of_forall₂ h) (.forItems fun a ha => ?_)
        have hitem : a.1 ∈ items := List.fst_mem_of_mem_zipIdx ha
        refine visit_siblings (s := s.pushContext (.seq items)) hperm hmerge hpure
          (fun hruns => hresults (a.1, s.pushContext (.seq items)) ?_)
          fun t ht => Value.hereditary_distinct.slots hs t (List.mem_of_getElem? ht)
        exact List.mem_map_of_mem (List.mem_filter.2 ⟨hitem, congrArg not hruns⟩)
      · split at hresults
        · rename_i hiterate hvalue
          exact (hvalue _ hiterate rfl).elim
        · refine visit_siblings hperm hmerge hpure (fun hruns => hresults (_, s) ?_) hs
          simp [hruns]

/-- The order of its fields does not show in what a shape comes to, but for the order of keys. This
is so where no field ends in a merge, all ingredients are pure, and the results of the fields are
harmonious wherever they are run, whatever the target is. -/
theorem run_siblings (hperm : sh.fields.Perm fields) (hmerge : ∀ f ∈ sh.fields, f.merge = none)
    (hpure : ∀ i ∈ Pipeline.ingredients [.shape sh], i.IsPure) {v : Value} {o : Options}
    (ho : ∀ t ∈ o.target, t.Distinct)
    (hresults : ∀ a ∈ sh.visits v (.ofOptions o), ∃ results,
      (sh.fieldResults a.1 a.2).Returns results ∧ Harmonious o.nonvalues results) :
    ∃ out out' : Value, out.Reordered out' ∧ ∀ w,
      (Pipeline.run [.shape sh] v o w).1 = .ok out ∧
      (Pipeline.runAsync [.shape sh] v o w).1 = .ok out ∧
      (Pipeline.run [.shape { sh with fields }] v o w).1 = .ok out' ∧
      (Pipeline.runAsync [.shape { sh with fields }] v o w).1 = .ok out' := by
  obtain ⟨out, out', hout, hout', hreordered⟩ := start_siblings hperm hmerge hpure ho hresults
  exact ⟨out, out', hreordered, fun w =>
    ⟨hout.runSync w, hout.complete w, hout'.runSync w, hout'.complete w⟩⟩

end

/-- Two fields below one key of a target that has no map there, and one without a result between
them. -/
theorem run_siblings_below :
    ∃ (sh : Shape (Step Unit)) (fields : List (Field (Step Unit))) (v : Value) (o : Options),
      sh.fields.Perm fields ∧ (∀ f ∈ sh.fields, f.merge = none) ∧
      (∀ i ∈ Pipeline.ingredients [.shape sh], i.IsPure) ∧
      o.target = some (.map [("keep", .null), ("a", .str "old")]) ∧
      (Pipeline.run [.shape sh] v o ()).1 =
        .ok (.map [("keep", .null), ("a", .map [("x", .int 1), ("y", .int 2)])]) ∧
      (Pipeline.run [.shape { sh with fields }] v o ()).1 =
        .ok (.map [("keep", .null), ("a", .map [("y", .int 2), ("x", .int 1)])]) ∧
      ∃ out out' : Value, out.Reordered out' ∧ ∀ w,
        (Pipeline.run [.shape sh] v o w).1 = .ok out ∧
        (Pipeline.runAsync [.shape sh] v o w).1 = .ok out ∧
        (Pipeline.run [.shape { sh with fields }] v o w).1 = .ok out' ∧
        (Pipeline.runAsync [.shape { sh with fields }] v o w).1 = .ok out' := by
  have hsolid (key : String) (n : Int64) :
      (Value.map [("a", .map [(key, .int n)])]).Solid := by
    refine .map fun b hb => ?_
    cases List.mem_singleton.1 hb
    refine ⟨rfl, .map fun b hb => ?_⟩
    cases List.mem_singleton.1 hb
    exact ⟨rfl, .of_not_isMap rfl⟩
  have hcompatible : Value.Compatible (.map [("a", .map [("x", .int 1)])])
      (.map [("a", .map [("y", .int 2)])]) := by
    refine .map fun key hkey => ?_
    cases List.mem_singleton.1 hkey
    refine .map fun key hkey => ?_
    cases List.mem_singleton.1 hkey
    exact (Value.Compatible.absent _).symm
  have hpresent (es : Entries Value) : ({} : Nonvalues).contains (.map es) = false :=
    Nonvalues.Scalar.contains_map (by decide) es
  have hharmony : Harmonious {} [.map [("a", .map [("x", .int 1)])], .absent,
      .map [("a", .map [("y", .int 2)])]] :=
    ⟨by decide, by simp [hsolid], by decide, by simpa [hpresent] using hcompatible⟩
  refine ⟨{ fields := [
      { key := "a.x", steps := [.path (.move (.field "p") false),
        .op (.transform { name := "same", props := .absent, transform := .pure id }) {},
        .path (.move (.field "a") true), .path (.move (.field "x") true)] },
      { key := "none", steps := [.path (.move (.field "none") false)] },
      { key := "a.y", steps := [.path (.move (.field "q") false),
        .path (.move (.field "a") true), .path (.move (.field "y") true)] }] },
    _, .map [("p", .int 1), ("q", .int 2)],
    { target := some (.map [("keep", .null), ("a", .str "old")]) },
    (List.reverse_perm _).symm, ?merge, ?pure, rfl, rfl, rfl,
    run_siblings (List.reverse_perm _).symm ?merge ?pure ?target ?results⟩
  case merge => simp [Field.merge, Step.mergePreference, PathStep.mergePreference]
  case pure =>
    intro i hi
    rcases List.mem_cons.1 hi with rfl | hi
    · trivial
    · cases List.mem_singleton.1 hi
      exact fun v s => ⟨Task.isPrompt_ofState _, some v, fun _ => rfl⟩
  case target =>
    rintro _ ⟨⟩
    decide
  case results =>
    intro a ha
    cases List.mem_singleton.1 ha
    exact ⟨_, ⟨(), rfl⟩, hharmony⟩

end Reshape
