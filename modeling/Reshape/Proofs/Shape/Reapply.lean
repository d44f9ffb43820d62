import Reshape.Proofs.Pipeline.Suspension
import Reshape.Proofs.Shape.Compiled
import Reshape.Proofs.Value.Rebind

/-!
# Shapes on top of their own output

A shape that is run again on top of what it has built builds the same once more
(`run_shape_again`). Its fields run without the target, so they come to the same results, and the
results are bound in a map that holds them already (`absorbAll_seed`): what is no map is dropped
there, and bindings that are carried out once more change nothing.
-/

namespace Reshape

variable {ω : Type}

/-! ### Taking up results again -/

namespace Branch

/-- How the entries of the field's result are bound. -/
def binding (b : Branch ω) : Binding :=
  match b.merge with
  | some prefer => .ofWins (prefer == .current)
  | none => .merge

end Branch

/-- The entries that a map takes up from a result. -/
def Nonvalues.entries (ns : Nonvalues) (result : Value) : Entries Value :=
  if ns.contains result then [] else result.entries

section
variable {ns : Nonvalues}

theorem Nonvalues.distinct_entries {result : Value} (h : result.Distinct) :
    (Value.map (ns.entries result)).Distinct := by
  rw [Nonvalues.entries]
  split
  · exact Value.hereditary_distinct.empty
  · exact h.entries

/-- A map with entries takes up entries only. -/
theorem Branch.absorb_map (b : Branch ω) {es : Entries Value} (hes : es ≠ []) (result : Value) :
    b.absorb ns (.map es) result = .map (b.binding.bind es (ns.entries result)) := by
  rw [Branch.absorb, Nonvalues.entries, Branch.binding]
  split
  · rfl
  · cases b.merge with
    | some prefer =>
      cases result with
      | map inc => exact congrArg Value.map (Binding.settleAll_eq_bind _ es inc)
      | _ => rfl
    | none =>
      cases result with
      | map inc => exact congrArg Value.map (Binding.deepMergeEntries_eq_bind es inc)
      | _ => simp [Value.isMap, hes, Value.entries, Binding.bind]

theorem absorbAll_map {es : Entries Value} (hes : es ≠ []) (taken : List (Branch ω × Value)) :
    absorbAll ns (.map es) taken =
      .map (Binding.bindAll (taken.map fun r => (r.1.binding, ns.entries r.2)) es) := by
  induction taken generalizing es with
  | nil => rfl
  | cons r rest ih =>
    have hgrows := r.1.binding.grows_bind es (ns.entries r.2)
    rw [absorbAll_cons, r.1.absorb_map hes, ih (hgrows.ne_nil hes)]
    rfl

/-- Before there are entries, a map is bound in the empty map, or takes the place of what is
there. -/
theorem Branch.absorb_first (b : Branch ω) {acc : Value}
    (hacc : acc = .map [] ∨ acc.isMap = false) {inc : Entries Value}
    (hns : ns.contains (.map inc) = false) :
    b.absorb ns acc (.map inc) = .map (if acc.isMap then b.binding.bind [] inc else inc) := by
  simp only [Branch.absorb, hns, Branch.binding]
  rcases hacc with rfl | hacc
  · cases b.merge with
    | some prefer => exact congrArg Value.map (Binding.settleAll_eq_bind _ [] inc)
    | none => exact congrArg Value.map (Binding.deepMergeEntries_eq_bind [] inc)
  · cases b.merge <;> cases acc <;> first | rfl | cases hacc

/-- Before there are entries, a result either has none to bind or makes a map that has them. -/
theorem Branch.absorb_fresh (b : Branch ω) {acc : Value}
    (hacc : acc = .map [] ∨ acc.isMap = false) {result : Value} (hresult : result.Distinct) :
    (∀ es : Entries Value, es.keys.Nodup → b.binding.bind es (ns.entries result) = es) ∨
      ∃ es, es ≠ [] ∧ b.absorb ns acc result = .map es ∧
        b.binding.bind es (ns.entries result) = es := by
  rcases hcontains : ns.contains result with _ | _
  · cases result with
    | map inc =>
      have hentries : ns.entries (.map inc) = inc := by
        simp [Nonvalues.entries, hcontains, Value.entries]
      have hfirst := b.absorb_first hacc hcontains
      rw [hentries, hfirst]
      by_cases hnone : b.binding.bind [] inc = []
      · exact .inl fun es hes => b.binding.bind_of_empty hresult.nodup hnone hes
      · refine .inr ⟨_, ?_, rfl, ?_⟩
        · split
          · exact hnone
          · rintro rfl
            exact hnone rfl
        · split
          · exact b.binding.bind_idem Value.hereditary_distinct.empty hresult
          · exact b.binding.bind_self hresult
    | _ => exact .inl fun es _ => by simp [Nonvalues.entries, Value.entries, Binding.bind]
  · exact .inl fun es _ => by simp [Nonvalues.entries, hcontains, Binding.bind]

/-- A map with entries in which results have been bound stays as it is when they are bound in it
again. -/
theorem absorbAll_map_again {taken : List (Branch ω × Value)} (htaken : ∀ r ∈ taken, r.2.Distinct)
    {acc es : Entries Value} (hacc : (Value.map acc).Distinct) (hne : acc ≠ [])
    (h : absorbAll ns (.map acc) taken = .map es) : absorbAll ns (.map es) taken = .map es := by
  have hdistinct : ∀ u ∈ taken.map fun r => (r.1.binding, ns.entries r.2),
      (Value.map u.2).Distinct := by
    intro u hu
    obtain ⟨r, hr, rfl⟩ := List.mem_map.1 hu
    exact Nonvalues.distinct_entries (htaken r hr)
  rw [absorbAll_map hne] at h
  obtain rfl := Value.map.inj h
  rw [absorbAll_map ((Binding.grows_bindAll ..).ne_nil hne), Binding.bindAll_idem hdistinct hacc]

/-- The same, whatever was there before the entries. -/
theorem absorbAll_again {taken : List (Branch ω × Value)} (htaken : ∀ r ∈ taken, r.2.Distinct)
    {acc : Value} (hacc : acc.Distinct) {es : Entries Value} (hes : es ≠ [])
    (h : absorbAll ns acc taken = .map es) : absorbAll ns (.map es) taken = .map es := by
  induction taken generalizing acc with
  | nil => rfl
  | cons r rest ih =>
    obtain ⟨hr, hrest⟩ := List.forall_mem_cons.1 htaken
    have hnext := Value.hereditary_distinct.absorb hacc hr ns r.1
    by_cases hfresh : acc = .map [] ∨ acc.isMap = false
    · rcases r.1.absorb_fresh hfresh hr with hsame | ⟨first, hne, hfirst, hsame⟩
      · have hresult : (Value.map es).Distinct :=
          h ▸ Value.hereditary_distinct.absorbAll ns htaken hacc
        rw [absorbAll_cons, r.1.absorb_map hes, hsame es hresult.nodup]
        exact ih hrest hnext h
      · -- The first entries: the result could have been bound in them already.
        rw [absorbAll_cons, hfirst] at h
        refine absorbAll_map_again htaken (hfirst ▸ hnext) hne ?_
        rw [absorbAll_cons, r.1.absorb_map hne, hsame, h]
    · cases acc with
      | map acc =>
        exact absorbAll_map_again htaken hacc (fun hnone => hfresh (.inl (by rw [hnone]))) h
      | _ => exact absurd (.inr rfl) hfresh

/-- On top of what they have built, results build the same. -/
theorem absorbAll_seed {taken : List (Branch ω × Value)} (htaken : ∀ r ∈ taken, r.2.Distinct)
    {target : Option Value} (htarget : ∀ t ∈ target, t.Distinct) :
    absorbAll ns (seed (some (absorbAll ns (seed target) taken))) taken =
      absorbAll ns (seed target) taken := by
  by_cases hbuilt : ∃ es, es ≠ [] ∧ absorbAll ns (seed target) taken = .map es
  · obtain ⟨es, hes, heq⟩ := hbuilt
    rw [heq]
    exact absorbAll_again htaken (Value.hereditary_distinct.seed htarget) hes heq
  · have hempty : seed target = .map [] := by
      obtain ⟨es, hes⟩ : ∃ es, seed target = .map es := by
        unfold seed
        split <;> exact ⟨_, rfl⟩
      by_contra hne
      have hentries : es ≠ [] := fun hnone => hne (by rw [hes, hnone])
      refine hbuilt ⟨_, ?_, by rw [hes, absorbAll_map hentries]⟩
      exact (Binding.grows_bindAll ..).ne_nil hentries
    have hagain : seed (some (absorbAll ns (seed target) taken)) = .map [] := by
      cases heq : absorbAll ns (seed target) taken with
      | map es =>
        cases es with
        | nil => rfl
        | cons b rest => exact absurd ⟨_, by simp, heq⟩ hbuilt
      | _ => rfl
    rw [hagain, hempty]

end

/-! ### Runs that differ in the target -/

/-- A run that collects something whatever the target is, and then builds on the target. What it
builds on top of its own output is that output. -/
def Reapplies (run : Option Value → Task ω Value) : Prop :=
  ∃ (γ : Type) (collected : Task ω γ) (result : Option γ) (build : Option Value → γ → Value),
    (∀ t, run t = collected.map (build t)) ∧ collected.Settles result ∧
      ∀ c ∈ result, ∀ t : Option Value, (∀ u ∈ t, u.Distinct) →
        build (some (build t c)) c = build t c

namespace Reapplies

theorem const (v : Value) : Reapplies fun _ => (.done v : Task ω Value) :=
  ⟨Unit, .done (), some (), fun _ _ => v, fun _ => rfl, rfl, fun _ _ _ _ => rfl⟩

section
variable {run : Option Value → Task ω Value}

theorem complete (h : Reapplies run) {target : Option Value} (ht : ∀ t ∈ target, t.Distinct)
    {w : ω} {out : Value} (hout : ((run target).complete w).1 = .ok out) (w' : ω) :
    ((run (some out)).complete w').1 = .ok out := by
  obtain ⟨γ, collected, result, build, hrun, hsettles, hagain⟩ := h
  have hfirst := (hsettles.map (build target)).complete w
  rw [← hrun, hout] at hfirst
  obtain ⟨c, hc, rfl⟩ := Option.map_eq_some_iff.1 hfirst.symm
  rw [← Task.toOption_eq_some, hrun, (hsettles.map _).complete, hc, Option.map_some,
    hagain c hc target ht]

theorem suspends (h : Reapplies run) (target target' : Option Value) (w : ω) :
    (run target).Suspends w ↔ (run target').Suspends w := by
  obtain ⟨γ, collected, result, build, hrun, -⟩ := h
  rw [hrun, hrun, Task.suspends_map, Task.suspends_map]

end

end Reapplies

/-- No value that the state holds repeats a key. -/
def State.Distinct (s : State) : Prop :=
  (∀ t ∈ s.target, t.Distinct) ∧ ∀ u ∈ s.context, u.Distinct

namespace Shape

/-- What the fields of a shape come to, unless it passes the value by. -/
def collect (sh : Shape (Step ω)) (bs : List (Branch ω)) (s : State) (v : Value) :
    Task ω (List Value) :=
  if s.isNonvalue v && !sh.always then .done [] else gather bs v s

/-- What a shape makes of a value and of the results of its fields. -/
def build (sh : Shape (Step ω)) (bs : List (Branch ω)) (s : State) (v : Value)
    (target : Option Value) (results : List Value) : Value :=
  if s.isNonvalue v && !sh.always then v
  else absorbAll s.nonvalues (seed target) ((activeIn s bs).zip results)

variable {sh : Shape (Step ω)} {bs : List (Branch ω)} {s : State}

theorem collect_build (v : Value) (target : Option Value) :
    (if s.isNonvalue v && !sh.always then .done v else assemble bs v (s.withTarget target)) =
      (sh.collect bs s v).map (sh.build bs s v target) := by
  rw [collect]
  unfold build
  split
  · rfl
  · exact assemble_eq bs v (s.withTarget target)

theorem build_again {v : Value} {results : List Value} (hresults : ∀ u ∈ results, u.Distinct)
    {target : Option Value} (ht : ∀ t ∈ target, t.Distinct) :
    sh.build bs s v (some (sh.build bs s v target results)) results =
      sh.build bs s v target results := by
  unfold build
  split
  · rfl
  · exact absorbAll_seed (fun r hr => hresults r.2 (List.of_mem_zip hr).2) ht

/-- What an iterating shape makes of the items of a sequence and of the results of its fields for
each of them. -/
def buildItems (sh : Shape (Step ω)) (bs : List (Branch ω)) (s : State) (items : List Value)
    (target : Option Value) (collected : List (List Value)) : Value :=
  let slots := (target.bind Value.items?).getD []
  .seq (List.zipWith (fun a results => sh.build bs s a.1 slots[a.2]? results) items.zipIdx
    collected)

theorem buildItems_again {items : List Value} {collected : List (List Value)}
    (hcollected : ∀ results ∈ collected, ∀ u ∈ results, u.Distinct) {target : Option Value}
    (ht : ∀ t ∈ target, t.Distinct) :
    sh.buildItems bs s items (some (sh.buildItems bs s items target collected)) collected =
      sh.buildItems bs s items target collected := by
  refine congrArg Value.seq (List.ext_getElem (by simp) fun i _ hi => ?_)
  obtain ⟨hitem, hresults⟩ : i < items.length ∧ i < collected.length := by
    simpa [Nat.lt_min] using hi
  have hslots : ∀ t ∈ ((target.bind Value.items?).getD [])[i]?, t.Distinct := fun t hslot =>
    Value.hereditary_distinct.slots ht t (List.mem_of_getElem? hslot)
  have hbuilt :
      (((some (sh.buildItems bs s items target collected)).bind Value.items?).getD [])[i]? =
        some (sh.build bs s items[i] ((target.bind Value.items?).getD [])[i]? collected[i]) :=
    (List.getElem?_eq_getElem hi).trans (by simp)
  simp only [List.getElem_zipWith, List.getElem_zipIdx, Nat.zero_add, hbuilt]
  exact build_again (hcollected _ (List.getElem_mem hresults)) hslots

theorem settles_collect {bs' : List (Branch ω)}
    (h : List.Forall₂ ((Simulation.within .settling Value.hereditary_distinct).Branches false)
      bs bs')
    (sh : Shape (Step ω)) {v : Value} (hv : v.Distinct) (hs : s.Distinct) :
    TaskRelation.settling.tasks (fun results => ∀ u ∈ results, u.Distinct) (sh.collect bs s v)
      (sh.collect bs' s v) := by
  unfold collect
  split
  · exact TaskRelation.settling.done (by simp)
  · exact Simulation.gather h hv ⟨rfl, hs⟩

theorem run_seq (hadmits : Direction.admits sh.only s.effective = true)
    (hiterate : sh.iterate = true) (bs : List (Branch ω)) (items : List Value)
    (target : Option Value) :
    sh.run bs (.seq items) (s.withTarget target) =
      (Task.forItems (fun a => sh.collect bs ((sh.enter s).pushContext (.seq items)) a.1)
        items.zipIdx).map
        (sh.buildItems bs ((sh.enter s).pushContext (.seq items)) items target) := by
  have hpasses : (!Direction.admits sh.only (s.withTarget target).effective) = false :=
    congrArg not hadmits
  have hitems := Task.forItems_map
    (fun a : Value × Nat => sh.collect bs ((sh.enter s).pushContext (.seq items)) a.1)
    (fun a => sh.build bs ((sh.enter s).pushContext (.seq items)) a.1
      ((target.bind Value.items?).getD [])[a.2]?) items.zipIdx
  simp only [← collect_build] at hitems
  simp only [run, hpasses, hiterate]
  exact (congrArg (Task.map Value.seq) hitems).trans (Task.map_map ..)

theorem run_value (hadmits : Direction.admits sh.only s.effective = true) {v : Value}
    (h : sh.iterate = false ∨ v.isSeq = false) (bs : List (Branch ω)) (target : Option Value) :
    sh.run bs v (s.withTarget target) =
      (sh.collect bs (sh.enter s) v).map (sh.build bs (sh.enter s) v target) := by
  have hpasses : (!Direction.admits sh.only (s.withTarget target).effective) = false :=
    congrArg not hadmits
  rw [← collect_build, run, hpasses]
  rcases h with h | h
  · simp only [h]
    rfl
  · cases sh.iterate <;> cases v <;> first | rfl | cases h

/-- A shape whose fields settle builds the same on top of its own output. -/
theorem reapplies {bs' : List (Branch ω)}
    (h : List.Forall₂ ((Simulation.within .settling Value.hereditary_distinct).Branches false)
      bs bs')
    (sh : Shape (Step ω)) {v : Value} (hv : v.Distinct) (hs : s.Distinct) :
    Reapplies fun target => sh.run bs v (s.withTarget target) := by
  cases hadmits : Direction.admits sh.only s.effective with
  | false =>
    have hpasses (target : Option Value) :
        (!Direction.admits sh.only (s.withTarget target).effective) = true := congrArg not hadmits
    simpa only [run, hpasses, if_true] using Reapplies.const v
  | true =>
    by_cases hitems : sh.iterate = false ∨ v.isSeq = false
    · obtain ⟨result, hsettles, -, hdistinct⟩ := settles_collect (s := sh.enter s) h sh hv hs
      exact ⟨_, _, result, sh.build bs (sh.enter s) v, run_value hadmits hitems bs, hsettles,
        fun c hc t ht => build_again (hdistinct c hc) ht⟩
    · obtain ⟨hiterate, hseq⟩ : sh.iterate = true ∧ v.isSeq = true := by simpa using hitems
      obtain ⟨items, rfl⟩ : ∃ items, v = .seq items := by
        cases v <;> first | exact ⟨_, rfl⟩ | cases hseq
      have hinside : ((sh.enter s).pushContext (.seq items)).Distinct :=
        ⟨hs.1, List.forall_mem_cons.2 ⟨hv, hs.2⟩⟩
      have hcollect : ∀ a ∈ items.zipIdx,
          TaskRelation.settling.tasks (fun results => ∀ u ∈ results, u.Distinct)
            (sh.collect bs ((sh.enter s).pushContext (.seq items)) a.1)
            (sh.collect bs' ((sh.enter s).pushContext (.seq items)) a.1) := fun a ha =>
        settles_collect h sh
          ((Value.hereditary_distinct.seq items).1 hv a.1 (List.fst_mem_of_mem_zipIdx ha)) hinside
      obtain ⟨result, hsettles, -, hdistinct⟩ := Simulation.forItems
        (S := .within .settling Value.hereditary_distinct) hcollect
      exact ⟨_, _, result, _, run_seq hadmits hiterate bs items, hsettles,
        fun c hc t ht => buildItems_again (hdistinct c hc) ht⟩

end Shape

/-! ### Pipelines of one shape -/

/-- A call whose results repeat no key where what it is given repeats none, as those of the host do,
or a constant that repeats none. -/
def Ingredient.KeepsDistinct : Ingredient ω → Prop
  | call c => ∀ v s, v.Distinct → s.Distinct →
    (c.transform.call v s).Ends (Task.Outcome Value.Distinct fun _ => True)
  | source (.constant v) _ => v.Distinct
  | source (.generator _ _) _ => True
  | shape _ => True

section
variable {sh : Shape (Step ω)}

theorem respects_distinct {is : List (Ingredient ω)} (hfunctional : ∀ i ∈ is, i.IsFunctional)
    (hkeeps : ∀ i ∈ is, i.KeepsDistinct) (w : ω) : ∀ i ∈ is, ∀ reading,
      (Simulation.within .settling Value.hereditary_distinct).Respects reading {} i := by
  refine Simulation.within_respects _ _ (fun c hc v s hv hs => ?call)
    (fun source fixed hsource _ v s => ?source)
  case call =>
    obtain ⟨result, hsettles⟩ := hfunctional _ hc v s
    refine ⟨result, hsettles, hsettles, fun u hu => ?_⟩
    have hdistinct := (hkeeps _ hc v s hv hs).complete w
    rwa [Task.toOption_eq_some.1 ((hsettles.complete w).trans hu)] at hdistinct
  case source =>
    cases source with
    | constant c => exact Simulation.runValue_constant _ trivial (hkeeps _ hsource) fixed v s
    | generator => exact (hfunctional _ hsource).elim

theorem reapplies_start (hfunctional : ∀ i ∈ Pipeline.ingredients [.shape sh], i.IsFunctional)
    (hkeeps : ∀ i ∈ Pipeline.ingredients [.shape sh], i.KeepsDistinct) {v : Value} (hv : v.Distinct)
    {s : State} (hs : s.Distinct) (w : ω) :
    Reapplies fun target => Pipeline.start [.shape sh] v (s.withTarget target) := by
  have hruns : Reapplies fun target => runShape sh v (s.withTarget target) := by
    obtain ⟨fields, iterate, flip, noDefaults, always, only⟩ := sh
    refine Shape.reapplies (Simulation.branches (r := {}) fun i hi => ?_) _ hv hs
    exact respects_distinct hfunctional hkeeps w i
      (List.mem_append_left _ (List.mem_cons_of_mem _ hi))
  cases hskips : s.isNonvalue v && !Pipeline.hasAlways [.shape sh] with
  | false =>
    have hstart (target : Option Value) : Pipeline.start [.shape sh] v (s.withTarget target) =
        runShape sh v (s.withTarget target) := by
      rw [← runSteps_shape]
      exact if_neg (Bool.eq_false_iff.1 hskips)
    simpa only [hstart] using hruns
  | true =>
    have hstart (target : Option Value) :
        Pipeline.start [.shape sh] v (s.withTarget target) = .done .absent := if_pos hskips
    simpa only [hstart] using Reapplies.const .absent

/-- A shape that is run on top of what it has built builds the same: where its calls are functions
and there are no generators, and as no map repeats a key, the same value again with the same order
of keys. A single poll builds it again as well, in whatever state of the host the first run would
not have suspended. -/
theorem run_shape_again (hfunctional : ∀ i ∈ Pipeline.ingredients [.shape sh], i.IsFunctional)
    (hkeeps : ∀ i ∈ Pipeline.ingredients [.shape sh], i.KeepsDistinct) {v : Value} (hv : v.Distinct)
    {o : Options} (ho : ∀ t ∈ o.target, t.Distinct) {w : ω} {out : Value} :
    ((Pipeline.runAsync [.shape sh] v o w).1 = .ok out →
      ∀ w', (Pipeline.runAsync [.shape sh] v { o with target := some out } w').1 = .ok out) ∧
    ((Pipeline.run [.shape sh] v o w).1 = .ok out →
      (Pipeline.run [.shape sh] v { o with target := some out } w).1 = .ok out ∧
      ∀ w', ¬(Pipeline.start [.shape sh] v (.ofOptions o)).Suspends w' →
        (Pipeline.run [.shape sh] v { o with target := some out } w').1 = .ok out) := by
  have hs : (State.ofOptions o).Distinct := ⟨ho, by simp [State.ofOptions]⟩
  have hagain := reapplies_start hfunctional hkeeps hv hs w
  refine ⟨fun hout => hagain.complete ho hout, fun hout => ?_⟩
  have hprompt : ¬(Pipeline.start [.shape sh] v (.ofOptions o)).Suspends w := by
    intro hsuspends
    have hfails := Task.runSync_of_suspends hsuspends
    rw [Pipeline.run, hfails] at hout
    cases hout
  have hbuilds (w' : ω) (h : ¬(Pipeline.start [.shape sh] v (.ofOptions o)).Suspends w') :
      (Pipeline.run [.shape sh] v { o with target := some out } w').1 = .ok out := by
    rw [Pipeline.run, Task.runSync_eq_complete hprompt] at hout
    have hsecond := mt (hagain.suspends (some out) o.target w').1 h
    exact (congrArg Prod.fst (Task.runSync_eq_complete hsecond)).trans (hagain.complete ho hout w')
  exact ⟨hbuilds w hprompt, hbuilds⟩

end

theorem run_shape_again_merged :
    ∃ sh : Shape (Step Unit), (∀ i ∈ Pipeline.ingredients [.shape sh], i.IsFunctional) ∧
      (∀ i ∈ Pipeline.ingredients [.shape sh], i.KeepsDistinct) ∧
      (Pipeline.run [.shape sh] (.map [("x", .str "new"), ("y", .int 1)])
        { target := some (.map [("keep", .null), ("x", .str "old")]) } ()).1 =
          .ok (.map [("keep", .null), ("x", .str "new"), ("y", .int 1), ("z", .int 1)]) ∧
      (Pipeline.run [.shape sh] (.map [("x", .str "new"), ("y", .int 1)])
        { target := some (.map
          [("keep", .null), ("x", .str "new"), ("y", .int 1), ("z", .int 1)]) } ()).1 =
          .ok (.map [("keep", .null), ("x", .str "new"), ("y", .int 1), ("z", .int 1)]) := by
  refine ⟨{ fields := [
      { key := "+", steps := [.path (.move (.merge .current) true)] },
      { key := "z", steps := [.path (.move (.field "y") false),
        .op (.transform
          { name := "same", props := .absent, transform := .async fun v _ => .done v }) {},
        .path (.move (.field "z") true)] }] },
    ?functional, ?keeps, rfl,
    ((run_shape_again (o := { target := some (.map [("keep", .null), ("x", .str "old")]) })
      ?functional ?keeps (by decide) ?distinct).2 rfl).1⟩
  case functional =>
    intro i hi
    rcases List.mem_cons.1 hi with rfl | hi
    · trivial
    · cases List.mem_singleton.1 hi
      exact fun v _ => ⟨some v, rfl⟩
  case keeps =>
    intro i hi
    rcases List.mem_cons.1 hi with rfl | hi
    · trivial
    · cases List.mem_singleton.1 hi
      exact fun v _ hv _ => hv
  case distinct =>
    rintro _ ⟨⟩
    decide

end Reshape
