import Mathlib.Data.List.Forall2
import Reshape.Pipeline.Run
import Reshape.Proofs.Path.Hereditary
import Reshape.Proofs.Pipeline.Ingredients
import Reshape.Proofs.Shape.Absorb

/-!
# Runs side by side

Two runs of a pipeline, the second after a rewiring, whose states and tasks correspond. A
`Simulation` says what corresponds, and that what corresponds stays so in every way in which a run
goes on: there is one clause for each of them, and none for a particular operation. Lookups read in
a state of their own, where other states may correspond than around them. If the ingredients of the
pipeline respect the simulation, so do its runs (`Simulation.start`). Most simulations are of runs
that start in the same state (`Simulation.within`).
-/

namespace Reshape

variable {ω : Type}

/-- Two states in which paths and operations act alike. -/
structure State.Alike (s s' : State) : Prop where
  effective : s.effective = s'.effective
  nonvalues : s.nonvalues = s'.nonvalues
  always : s.always = s'.always
  target : s.target = s'.target
  context : s.context = s'.context

/-- All values that the state holds satisfy `P`. -/
def State.Satisfies (s : State) (P : Value → Prop) : Prop :=
  (∀ t ∈ s.target, P t) ∧ ∀ u ∈ s.context, P u

instance (s : State) {P : Value → Prop} [DecidablePred P] : Decidable (s.Satisfies P) :=
  inferInstanceAs (Decidable (_ ∧ _))

theorem State.satisfies_true (s : State) : s.Satisfies fun _ => True :=
  ⟨fun _ _ => trivial, fun _ _ => trivial⟩

/-- Tasks that correspond, with results that satisfy a property. -/
structure TaskRelation (ω : Type) where
  tasks {α : Type} (P : α → Prop) : Task ω α → Task ω α → Prop
  done {α : Type} {P : α → Prop} {a : α} (h : P a) : tasks P (.done a) (.done a)
  bind {α β : Type} {P : α → Prop} {Q : β → Prop} {t t' : Task ω α} {f f' : α → Task ω β}
    (h : tasks P t t') (hf : ∀ a, P a → tasks Q (f a) (f' a)) : tasks Q (t.bind f) (t'.bind f')
  joinAll {α : Type} {P : α → Prop} {ts ts' : List (Task ω α)}
    (h : List.Forall₂ (tasks P) ts ts') :
    tasks (fun as => ∀ a ∈ as, P a) (Task.joinAll ts) (Task.joinAll ts')

namespace TaskRelation

/-- Tasks that correspond in two ways at once. -/
def both (T U : TaskRelation ω) : TaskRelation ω where
  tasks P t t' := T.tasks P t t' ∧ U.tasks P t t'
  done h := ⟨T.done h, U.done h⟩
  bind h hf := ⟨T.bind h.1 fun a ha => (hf a ha).1, U.bind h.2 fun a ha => (hf a ha).2⟩
  joinAll h := ⟨T.joinAll (h.imp fun _ _ ht => ht.1), U.joinAll (h.imp fun _ _ ht => ht.2)⟩

end TaskRelation

structure Simulation (ω : Type) extends TaskRelation ω where
  /-- What holds of all values that are met. -/
  good : Value → Prop
  hereditary : Value.Hereditary good
  /-- States that correspond, in what a lookup reads (`reading`) or outside of lookups. -/
  states (reading : Bool) : State → State → Prop
  alike {reading : Bool} {s s' : State} (h : states reading s s') : s.Alike s'
  target {reading : Bool} {s s' : State} (h : states reading s s') : ∀ t ∈ s.target, good t
  context {reading : Bool} {s s' : State} (h : states reading s s') : ∀ v ∈ s.context, good v
  move {reading : Bool} {s s' : State} (h : states reading s s') {context : Context}
    (hc : ∀ v ∈ context, good v) {target : Option Value} (ht : ∀ t ∈ target, good t) :
    states reading { s with context, target } { s' with context, target }
  reader {reading : Bool} {s s' : State} (h : states reading s s') :
    states true s.reader s'.reader

namespace Simulation

variable (S : Simulation ω) (reading : Bool)

/-- The ingredient goes along with the simulation, as part of what a lookup reads or outside of
lookups. Calls are asked only about values that they can be given: those that are no nonvalues, and
all values where a shape runs on nonvalues. -/
def Respects (r : Rewiring ω) : Ingredient ω → Prop
  | .call c => ∀ v s s', S.good v → S.states reading s s' →
    s.isNonvalue v = false ∨ s.always = true →
      S.tasks S.good (c.transform.call v s) ((r.call c).transform.call v s')
  | .source source fixed => ∀ v s s', S.states reading s s' →
    S.tasks S.good (Op.runValue source fixed v s)
      (Op.runValue (r.source reading fixed source) fixed v s')
  | .shape sh => ∀ s s', S.states reading s s' → S.states reading (sh.enter s) (sh.enter s')

/-- Runners whose tasks correspond. -/
def Runs (r r' : Runner ω) : Prop :=
  ∀ v s s', S.good v → S.states reading s s' → S.tasks S.good (r v s) (r' v s')

/-- Runners whose tasks correspond where an operation is run. -/
def RunsPresent (r r' : Runner ω) : Prop :=
  ∀ v s s', S.good v → S.states reading s s' → s.isNonvalue v = false ∨ s.always = true →
    S.tasks S.good (r v s) (r' v s')

def Acts (a a' : Action ω) : Prop :=
  ∀ v s s', S.good v → S.states reading s s' →
    S.tasks (fun out => ∀ u ∈ out, S.good u) (a v s) (a' v s')

structure Branches (b b' : Branch ω) : Prop where
  merge : b.merge = b'.merge
  only : b.only = b'.only
  run : S.Runs reading b.run b'.run

variable {S reading}

theorem Runs.present {r r' : Runner ω} (h : S.Runs reading r r') : S.RunsPresent reading r r' :=
  fun v s s' hv hs _ => h v s s' hv hs

/-! ### Tasks -/

section
variable {α β : Type} {P : α → Prop} {Q : β → Prop}

theorem map {t t' : Task ω α} (h : S.tasks P t t') {f : α → β} (hf : ∀ a, P a → Q (f a)) :
    S.tasks Q (t.map f) (t'.map f) :=
  S.bind h fun a ha => S.done (hf a ha)

theorem forItems {f f' : α → Task ω β} {as : List α} (h : ∀ a ∈ as, S.tasks Q (f a) (f' a)) :
    S.tasks (fun bs => ∀ b ∈ bs, Q b) (Task.forItems f as) (Task.forItems f' as) := by
  induction as with
  | nil => exact S.done (by simp)
  | cons a rest ih =>
    obtain ⟨ha, hrest⟩ := List.forall_mem_cons.1 h
    refine S.bind ha fun b hb => S.bind (ih hrest) fun bs hbs => S.done ?_
    exact List.forall_mem_cons.2 ⟨hb, hbs⟩

end

/-! ### States -/

section
variable {s s' : State}

theorem isNonvalue (hs : S.states reading s s') (v : Value) : s.isNonvalue v = s'.isNonvalue v := by
  rw [State.isNonvalue, (S.alike hs).nonvalues, State.isNonvalue]

theorem isReverse (hs : S.states reading s s') : s.isReverse = s'.isReverse := by
  rw [State.isReverse, (S.alike hs).effective, State.isReverse]

theorem withTarget (hs : S.states reading s s') {target : Option Value}
    (ht : ∀ t ∈ target, S.good t) :
    S.states reading (s.withTarget target) (s'.withTarget target) := by
  have hmove := S.move hs (S.context hs) ht
  have hcontext : ({ s' with context := s.context, target } : State) = s'.withTarget target := by
    rw [(S.alike hs).context]
    rfl
  exact hcontext ▸ hmove

theorem pushContext (hs : S.states reading s s') {v : Value} (hv : S.good v) :
    S.states reading (s.pushContext v) (s'.pushContext v) := by
  have hmove := S.move hs (List.forall_mem_cons.2 ⟨hv, S.context hs⟩) (S.target hs)
  have hpush : ({ s' with context := v :: s.context, target := s.target } : State) =
      s'.pushContext v := by
    rw [(S.alike hs).context, (S.alike hs).target]
    rfl
  exact hpush ▸ hmove

end

/-! ### Shapes -/

/-- Only the closing merges of the fields count when their results are taken up. -/
theorem absorbAll_congr {bs bs' : List (Branch ω)} (h : List.Forall₂ (S.Branches reading) bs bs')
    (ns : Nonvalues) (results : List Value) (acc : Value) :
    absorbAll ns acc (bs.zip results) = absorbAll ns acc (bs'.zip results) := by
  induction h generalizing results acc with
  | nil => rfl
  | @cons b b' _ _ hb _ ih =>
    cases results with
    | nil => rfl
    | cons result rest =>
      have habsorb : b.absorb ns acc result = b'.absorb ns acc result := by
        simp only [Branch.absorb, hb.merge]
      simp only [List.zip_cons_cons, absorbAll_cons, habsorb]
      exact ih rest _

theorem active {bs bs' : List (Branch ω)} (h : List.Forall₂ (S.Branches reading) bs bs')
    {s s' : State} (hs : S.states reading s s') :
    List.Forall₂ (S.Branches reading) (activeIn s bs) (activeIn s' bs') := by
  simp only [activeIn, ← (S.alike hs).effective]
  induction h with
  | nil => exact .nil
  | @cons b b' _ _ hb _ ih =>
    simp only [List.filter_cons, hb.only]
    split
    · exact .cons hb ih
    · exact ih

theorem gather {bs bs' : List (Branch ω)} (h : List.Forall₂ (S.Branches reading) bs bs') {v : Value}
    (hv : S.good v) {s s' : State} (hs : S.states reading s s') :
    S.tasks (fun results => ∀ u ∈ results, S.good u) (gather bs v s) (gather bs' v s') := by
  have hinside : S.states reading (s.withTarget none) (s'.withTarget none) :=
    withTarget hs (by simp)
  refine S.joinAll ?_
  rw [List.forall₂_map_left_iff, List.forall₂_map_right_iff]
  exact (active h hs).imp fun b b' hb => hb.run v _ _ hv hinside

theorem assemble {bs bs' : List (Branch ω)} (h : List.Forall₂ (S.Branches reading) bs bs') :
    S.Runs reading (assemble bs) (assemble bs') := by
  intro v s s' hv hs
  rw [assemble_eq, assemble_eq]
  simp only [← (S.alike hs).target, ← (S.alike hs).nonvalues, ← absorbAll_congr (active h hs)]
  refine map (gather h hv hs) fun results hresults => ?_
  exact S.hereditary.absorbAll _ (fun r hr => hresults r.2 (List.of_mem_zip hr).2)
    (S.hereditary.seed (S.target hs))

theorem shape {bs bs' : List (Branch ω)} (h : List.Forall₂ (S.Branches reading) bs bs')
    (sh : Shape (Step ω))
    (hsh : ∀ s s', S.states reading s s' → S.states reading (sh.enter s) (sh.enter s')) :
    S.Runs reading (sh.run bs) (sh.run bs') := by
  intro v s s' hv hs
  have hinner := hsh s s' hs
  unfold Shape.run
  simp only [← (S.alike hs).effective, ← (S.alike hs).target, ← isNonvalue hs]
  split
  · exact S.done hv
  · split
    · rename_i items _
      have hitems := (S.hereditary.seq items).1 hv
      refine map (forItems (Q := S.good) fun a ha => ?_) fun bs hbs => (S.hereditary.seq bs).2 hbs
      obtain ⟨item, i⟩ := a
      have hitem : S.good item := hitems item (List.fst_mem_of_mem_zipIdx ha)
      dsimp only
      split
      · exact S.done hitem
      · refine assemble h _ _ _ hitem (withTarget (pushContext hinner hv) fun t ht => ?_)
        exact S.hereditary.slots (S.target hs) t (List.mem_of_getElem? ht)
    · split
      · exact S.done hv
      · exact assemble h _ _ _ hv hinner

/-! ### Operations -/

section
variable {r r' : Runner ω}

theorem onItems (h : S.RunsPresent reading r r') : S.RunsPresent reading r.onItems r'.onItems := by
  intro v s s' hv hs hpresent
  cases v with
  | seq items =>
    have hitems := (S.hereditary.seq items).1 hv
    have hinside : S.states reading (s.pushContext (.seq items)) (s'.pushContext (.seq items)) :=
      pushContext hs hv
    simp only [Runner.onItems, ← (S.alike hs).always, ← isNonvalue hs]
    refine map (forItems (Q := S.good) fun item hitem => ?_) fun bs hbs =>
      (S.hereditary.seq bs).2 hbs
    split
    · exact S.done (hitems item hitem)
    · rename_i hgate
      refine h _ _ _ (hitems item hitem) hinside ?_
      change s.isNonvalue item = false ∨ s.always = true
      cases hnonvalue : s.isNonvalue item <;> simp_all
  | _ => exact h _ s s' hv hs hpresent

theorem guard (flags : Flags) (h : S.RunsPresent reading r r') :
    S.Acts reading (flags.guard r) (flags.guard r') := by
  intro v s s' hv hs
  simp only [Flags.guard, ← (S.alike hs).always, ← (S.alike hs).effective, ← isNonvalue hs]
  split
  · exact S.done (by simpa using hv)
  · split
    · exact S.done (by simp)
    · rename_i hgate
      have hpresent : s.isNonvalue v = false ∨ s.always = true := by
        cases hnonvalue : s.isNonvalue v <;> simp_all
      exact map (h v s s' hv hs hpresent) fun u hu => by simpa using hu

end

theorem filter {c c' : Call ω} (h : S.RunsPresent reading c.transform.call c'.transform.call) :
    S.RunsPresent reading (Op.runFilter c) (Op.runFilter c') := by
  have hkeep {s s' : State} (hs : S.states reading s s') {items : List Value}
      (hitems : ∀ u ∈ items, S.good u) : S.tasks (fun kept => ∀ u ∈ kept, S.good u)
        (Op.keepItems c s items) (Op.keepItems c' s' items) := by
    induction items with
    | nil => exact S.done (by simp)
    | cons item rest ih =>
      obtain ⟨hitem, hrest⟩ := List.forall_mem_cons.1 hitems
      simp only [Op.keepItems, ← isNonvalue hs]
      split
      · exact ih hrest
      · rename_i hpresent
        refine S.bind (h item s s' hitem hs (.inl (by simpa using hpresent))) fun verdict _ =>
          S.bind (ih hrest) fun kept hkept => S.done ?_
        split
        · exact List.forall_mem_cons.2 ⟨hitem, hkept⟩
        · exact hkept
  intro v s s' hv hs hpresent
  have hverdict : S.tasks S.good ((c.transform.call v s).map fun verdict =>
      if verdict.isTruthy then v else .absent) ((c'.transform.call v s').map fun verdict =>
      if verdict.isTruthy then v else .absent) := by
    refine map (h v s s' hv hs hpresent) fun verdict _ => ?_
    split
    · exact hv
    · exact S.hereditary.absent
  cases v with
  | seq items =>
    exact map (hkeep hs ((S.hereditary.seq items).1 hv)) fun kept hkept =>
      (S.hereditary.seq kept).2 hkept
  | _ => exact hverdict

theorem alt {rs rs' : List (Runner ω)} (h : List.Forall₂ (S.Runs reading) rs rs') :
    S.Runs reading (Op.runAlt rs) (Op.runAlt rs') := by
  intro v s s' hv hs
  induction h with
  | nil => exact S.done S.hereditary.absent
  | cons hr _ ih =>
    refine S.bind (hr v s s' hv hs) fun out hout => ?_
    rw [← isNonvalue hs]
    split
    · exact ih
    · exact S.done hout

theorem concat {rs rs' : List (Runner ω)} (h : List.Forall₂ (S.Runs reading) rs rs') :
    S.Runs reading (Op.runConcat rs) (Op.runConcat rs') := by
  intro v s s' hv hs
  have hjoin : S.tasks (fun items => ∀ u ∈ items, S.good u) (Op.joinItems rs v s)
      (Op.joinItems rs' v s') := by
    induction h with
    | nil => exact S.done (by simp)
    | cons hr _ ih =>
      refine S.bind (hr v s s' hv hs) fun out hout => S.bind ih fun more hmore => ?_
      simp only [← isNonvalue hs]
      refine S.done fun u hu => ?_
      rcases List.mem_append.1 hu with hu | hu
      · exact S.hereditary.toItems hout u (List.mem_filter.1 hu).1
      · exact hmore u hu
  have hsplit {acc u : Value} (hacc : S.good acc) (hu : S.good u) :
      S.tasks S.good (Op.splitItems rs acc u s) (Op.splitItems rs' acc u s') := by
    clear hjoin
    induction h generalizing acc u with
    | nil => exact S.done hacc
    | cons hr _ ih =>
      refine S.bind (hr u s s' hu hs) fun out hout => ?_
      exact ih (S.hereditary.deepMerge hacc hout) ((S.hereditary.seq []).2 (by simp))
  simp only [Op.runConcat, ← isReverse hs]
  split
  · exact hsplit S.hereditary.absent hv
  · exact map hjoin fun items hitems => (S.hereditary.seq items).2 hitems

/-! ### Segments -/

variable (S reading) in
/-- The same path step, or actions whose tasks correspond. -/
inductive Parts : Part (Action ω) → Part (Action ω) → Prop
  | path (p : PathStep) : Parts (.inl p) (.inl p)
  | action {a a' : Action ω} (h : S.Acts reading a a') : Parts (.inr a) (.inr a')

variable (S reading) in
inductive Segments : Segment (Action ω) → Segment (Action ω) → Prop
  | path (mode : Mode) (steps : List PathStep) : Segments (.path mode steps) (.path mode steps)
  | barrier (blocks : Direction) : Segments (.barrier blocks) (.barrier blocks)
  | other {a a' : Action ω} (h : S.Acts reading a a') : Segments (.other a) (.other a')

theorem consPath {segments segments' : List (Segment (Action ω))}
    (h : List.Forall₂ (S.Segments reading) segments segments') (mode : Mode) (step : PathStep) :
    List.Forall₂ (S.Segments reading) (Segment.consPath mode step segments)
      (Segment.consPath mode step segments') := by
  cases h with
  | nil => exact .cons (.path ..) .nil
  | cons hseg hrest =>
    cases hseg with
    | path m steps =>
      simp only [Segment.consPath]
      split
      · exact .cons (.path ..) hrest
      · exact .cons (.path ..) (.cons (.path ..) hrest)
    | barrier blocks => exact .cons (.path ..) (.cons (.barrier blocks) hrest)
    | other ha => exact .cons (.path ..) (.cons (.other ha) hrest)

theorem ofParts {ps ps' : List (Part (Action ω))} (h : List.Forall₂ (S.Parts reading) ps ps')
    (d : Direction) :
    List.Forall₂ (S.Segments reading) (Segment.ofParts d ps) (Segment.ofParts d ps') := by
  induction h with
  | nil => exact .nil
  | cons hp _ ih =>
    cases hp with
    | path p =>
      cases p with
      | move m inverted => exact consPath ih _ _
      | barrier blocks => exact .cons (.barrier blocks) ih
    | action ha => exact .cons (.other ha) ih

theorem targetBefore {segments segments' : List (Segment (Action ω))}
    (h : List.Forall₂ (S.Segments reading) segments segments') {target : Option Value}
    (ht : ∀ t ∈ target, S.good t) :
    Segment.targetBefore target segments = Segment.targetBefore target segments' ∧
      ∀ t ∈ Segment.targetBefore target segments, S.good t := by
  induction h with
  | nil => exact ⟨rfl, ht⟩
  | cons hseg _ ih =>
    obtain ⟨heq, hgood⟩ := ih
    simp only [Segment.targetBefore, ← heq]
    cases hseg with
    | path mode steps =>
      cases mode with
      | extract => exact ⟨rfl, by simp [Segment.handOn]⟩
      | construct => exact ⟨rfl, S.hereditary.navigate hgood _⟩
    | barrier blocks => exact ⟨rfl, hgood⟩
    | other ha => exact ⟨rfl, by simp [Segment.handOn]⟩

/-- A value and a context that are met. -/
def Reached (S : Simulation ω) (out : Option (Value × Context)) : Prop :=
  ∀ vc ∈ out, S.good vc.1 ∧ ∀ u ∈ vc.2, S.good u

theorem segment {seg seg' : Segment (Action ω)} (h : S.Segments reading seg seg') {v : Value}
    (hv : S.good v) {s s' : State} (hs : S.states reading s s') :
    S.tasks S.Reached (seg.run v s) (seg'.run v s') := by
  have hstay {v : Value} (hv : S.good v) : S.Reached (some (v, s.context)) := by
    rintro _ ⟨⟩
    exact ⟨hv, S.context hs⟩
  cases h with
  | path mode steps =>
    cases mode with
    | extract =>
      simp only [Segment.run, ← (S.alike hs).nonvalues, ← (S.alike hs).context]
      refine S.done ?_
      rintro _ ⟨⟩
      exact S.hereditary.extract _ hv (S.context hs)
    | construct =>
      simp only [Segment.run, ← (S.alike hs).nonvalues, ← (S.alike hs).context,
        ← (S.alike hs).target]
      exact S.done (hstay (S.hereditary.construct (S.target hs) (S.context hs) hv _))
  | barrier blocks =>
    simp only [Segment.run, ← (S.alike hs).effective, ← (S.alike hs).context]
    refine S.done ?_
    split
    · rintro _ ⟨⟩
    · exact hstay hv
  | other ha =>
    simp only [Segment.run, ← (S.alike hs).context]
    refine map (ha v s s' hv hs) fun out hout => ?_
    rintro ⟨u, c⟩ huc
    obtain ⟨u, hu, ⟨⟩⟩ := Option.map_eq_some_iff.1 huc
    exact ⟨hout u hu, S.context hs⟩

theorem segments {xs ys : List (Segment (Action ω))} (h : List.Forall₂ (S.Segments reading) xs ys)
    {v : Value} (hv : S.good v) {c : Context} (hc : ∀ u ∈ c, S.good u) {s s' : State}
    (hs : S.states reading s s') :
    S.tasks S.good (runSegments s xs v c) (runSegments s' ys v c) := by
  induction h generalizing v c with
  | nil => exact S.done hv
  | cons hseg hrest ih =>
    obtain ⟨hbefore, htarget⟩ := targetBefore hrest (S.target hs)
    simp only [runSegments, ← (S.alike hs).target, ← hbefore]
    refine S.bind (segment hseg hv (S.move hs hc htarget)) fun out hout => ?_
    rcases out with _ | ⟨u, c⟩
    · exact S.done S.hereditary.absent
    · obtain ⟨hu, hc⟩ := hout _ rfl
      exact ih hu hc

theorem parts {ps ps' : List (Part (Action ω))} (h : List.Forall₂ (S.Parts reading) ps ps') :
    S.Runs reading (runParts ps) (runParts ps') := by
  intro v s s' hv hs
  have hsegments := ofParts h s.effective
  simp only [runParts, ← (S.alike hs).effective, ← isReverse hs, ← (S.alike hs).context]
  split
  · exact segments (List.rel_reverse hsegments) hv (S.context hs) hs
  · exact segments hsegments hv (S.context hs) hs

/-! ### Runs in one state -/

section
variable {P : Value → Prop} (T : TaskRelation ω) (hP : Value.Hereditary P)

/-- The simulation of runs that start in the same state, with values that satisfy `P`. -/
def within : Simulation ω where
  toTaskRelation := T
  good := P
  hereditary := hP
  states _ s s' := s = s' ∧ s.Satisfies P
  alike := by
    rintro _ s _ ⟨rfl, -⟩
    exact ⟨rfl, rfl, rfl, rfl, rfl⟩
  target h := h.2.1
  context h := h.2.2
  move := by
    rintro _ s _ ⟨rfl, -⟩ context hc target ht
    exact ⟨rfl, ht, hc⟩
  reader := by
    rintro _ s _ ⟨rfl, -⟩
    exact ⟨rfl, by simp [State.reader], by simp [State.reader]⟩

/-- Such runs are in the same state inside shapes and lookups as well, so it is up to the calls and
the sources. -/
theorem within_respects {r : Rewiring ω} {is : List (Ingredient ω)}
    (hcalls : ∀ c, .call c ∈ is → ∀ v s, P v → s.Satisfies P →
      T.tasks P (c.transform.call v s) ((r.call c).transform.call v s))
    (hsources : ∀ source fixed, .source source fixed ∈ is → ∀ reading v s,
      T.tasks P (Op.runValue source fixed v s)
        (Op.runValue (r.source reading fixed source) fixed v s)) :
    ∀ i ∈ is, ∀ reading, (within T hP).Respects reading r i := by
  intro i hi reading
  cases i with
  | call c =>
    rintro v s _ hv ⟨rfl, hs⟩ -
    exact hcalls c hi v s hv hs
  | source source fixed =>
    rintro v s _ ⟨rfl, -⟩
    exact hsources source fixed hi reading v s
  | shape sh =>
    rintro s _ ⟨rfl, hs⟩
    exact ⟨rfl, hs⟩

/-- A constant comes to itself or to absence. -/
theorem runValue_constant (habsent : P .absent) {c : Value} (hc : P c) (fixed : Bool) (v : Value)
    (s : State) :
    T.tasks P (Op.runValue (.constant c) fixed v s) (Op.runValue (.constant c) fixed v s) := by
  rw [Op.runValue]
  split
  · exact T.done habsent
  · exact T.done hc

end

/-! ### Lookups -/

/-- Lookups read in the reader's states, whichever states they are in themselves. -/
theorem lookup {array array' key key' : Runner ω} (harray : S.Runs true array array')
    (hkey : S.Runs true key key') :
    S.Runs reading (Op.runLookup array key) (Op.runLookup array' key') := by
  intro v s s' hv hs
  have hreader : S.states true s.reader s'.reader := S.reader hs
  unfold Op.runLookup
  simp only [← isReverse hs, ← (S.alike hs).context, ← isNonvalue hreader]
  split
  · split
    · exact map (forItems fun u hu => hkey u _ _ ((S.hereditary.seq _).1 hv u hu) hreader)
        fun bs hbs => (S.hereditary.seq bs).2 hbs
    · exact hkey v _ _ hv hreader
  · have hroot : S.good (s.context.bottom?.getD v) := by
      cases hbottom : s.context.bottom? with
      | none => exact hv
      | some u => exact S.context hs u (List.mem_of_getLast? hbottom)
    refine S.bind (harray _ _ _ hroot hreader) fun found hfound => ?_
    have hcandidates : ∀ c ∈ found.toItems.filter (!s.reader.isNonvalue ·), S.good c :=
      fun c hc => S.hereditary.toItems hfound c (List.mem_filter.1 hc).1
    refine S.bind (P := fun keyed : List (Value × Value) => ∀ kc ∈ keyed, S.good kc.2)
      (forItems fun c hc => map (hkey c _ _ (hcandidates c hc) hreader)
        fun _ _ => hcandidates c hc) fun keyed hkeyed => ?_
    split
    · refine S.done ((S.hereditary.seq _).2 fun u hu => ?_)
      obtain ⟨wanted, -, rfl⟩ := List.mem_map.1 hu
      split
      · exact hkeyed _ (List.mem_of_find?_eq_some ‹_›)
      · exact S.hereditary.absent
    · refine S.done ?_
      split
      · exact hkeyed _ (List.mem_of_find?_eq_some ‹_›)
      · exact S.hereditary.absent

/-! ### Pipelines -/

theorem perItem {r r' : Runner ω} (h : S.RunsPresent reading r r') (iterate : Bool) :
    S.RunsPresent reading (runOp.perItem iterate r) (runOp.perItem iterate r') := by
  cases iterate with
  | false => exact h
  | true => exact onItems h

section
variable {r : Rewiring ω}

mutual

theorem stepPart : ∀ {s : Step ω} {reading : Bool},
    (∀ i ∈ s.ingredients, ∀ reading, S.Respects reading r i) →
      S.Parts reading s.part (s.rewire r reading).part
  | .path p, _, _ => .path p
  | .shape sh, _, h => .action fun v s s' hv hs =>
    map (runShape h v s s' hv hs) fun u hu => by simpa using hu
  | .op o flags, _, h => .action (guard flags (runOp h flags.iterate))

theorem runShape : ∀ {sh : Shape (Step ω)} {reading : Bool},
    (∀ i ∈ shapeIngredients sh, ∀ reading, S.Respects reading r i) →
      S.Runs reading (Reshape.runShape sh) (Reshape.runShape (rewireShape r reading sh))
  | ⟨fields, iterate, flip, noDefaults, always, only⟩, reading, h => by
    obtain ⟨hshape, hfields⟩ := List.forall_mem_cons.1 h
    exact shape (branches hfields) ⟨fields, iterate, flip, noDefaults, always, only⟩
      (hshape reading)

theorem branches : ∀ {fs : List (Field (Step ω))} {reading : Bool},
    (∀ i ∈ fieldsIngredients fs, ∀ reading, S.Respects reading r i) →
      List.Forall₂ (S.Branches reading) (Reshape.branches fs)
        (Reshape.branches (rewireFields r reading fs))
  | [], _, _ => .nil
  | ⟨key, steps, only⟩ :: rest, reading, h => by
    obtain ⟨hsteps, hrest⟩ := List.forall_mem_append.1 h
    have hparts : List.Forall₂ (S.Parts reading) (Reshape.stepParts steps)
        (Reshape.stepParts (rewireSteps r reading steps)) := stepParts hsteps
    have hfront : List.Forall₂ (S.Parts reading) (Reshape.stepParts steps).dropLast
        (Reshape.stepParts (rewireSteps r reading steps)).dropLast := by
      rw [List.dropLast_eq_take, List.dropLast_eq_take, hparts.length_eq]
      exact List.forall₂_take _ hparts
    rw [rewireFields, Reshape.branches, Reshape.branches]
    refine .cons ⟨(merge_rewire r reading key steps only).symm, rfl, ?_⟩ (branches hrest)
    simp only [merge_rewire]
    split
    · exact parts hfront
    · exact parts hparts

theorem runOp : ∀ {o : Op ω (Step ω)} {reading : Bool},
    (∀ i ∈ opIngredients o, ∀ reading, S.Respects reading r i) → ∀ iterate,
      S.RunsPresent reading (Reshape.runOp iterate o) (Reshape.runOp iterate (rewireOp r reading o))
  | .transform call, reading, h, iterate =>
    perItem (h (.call call) (List.mem_singleton_self _) reading) iterate
  | .filter call, reading, h, _ => filter (h (.call call) (List.mem_singleton_self _) reading)
  | .value source fixed, reading, h, iterate =>
    have hsource : S.Runs reading (Op.runValue source fixed)
        (Op.runValue (r.source reading fixed source) fixed) :=
      fun v s s' _ hs => h (.source source fixed) (List.mem_singleton_self _) reading v s s' hs
    perItem hsource.present iterate
  | .alt _, _, h, iterate => perItem (alt (runners h)).present iterate
  | .apply _ _, _, h, iterate => perItem (parts (stepParts h)).present iterate
  | .lookup _ _, _, h, iterate => by
    obtain ⟨harray, hkey⟩ := List.forall_mem_append.1 h
    exact perItem (lookup (parts (stepParts harray)) (parts (stepParts hkey))).present iterate
  | .concat _, _, h, iterate => perItem (concat (runners h)).present iterate

theorem runners : ∀ {ps : List (List (Step ω))} {reading : Bool},
    (∀ i ∈ pipelinesIngredients ps, ∀ reading, S.Respects reading r i) →
      List.Forall₂ (S.Runs reading) (Reshape.runners ps)
        (Reshape.runners (rewirePipelines r reading ps))
  | [], _, _ => .nil
  | p :: rest, _, h => by
    obtain ⟨hp, hrest⟩ := List.forall_mem_append.1 h
    exact .cons (parts (stepParts hp)) (runners hrest)

theorem stepParts : ∀ {p : List (Step ω)} {reading : Bool},
    (∀ i ∈ stepsIngredients p, ∀ reading, S.Respects reading r i) →
      List.Forall₂ (S.Parts reading) (Reshape.stepParts p)
        (Reshape.stepParts (rewireSteps r reading p))
  | [], _, _ => .nil
  | s :: rest, _, h => by
    obtain ⟨hs, hrest⟩ := List.forall_mem_append.1 h
    exact .cons (stepPart hs) (stepParts hrest)

end

/-- The runs of a pipeline and of its rewiring correspond, if its ingredients do. -/
theorem start {p : Pipeline ω} (h : ∀ i ∈ p.ingredients, ∀ reading, S.Respects reading r i) :
    S.Runs false p.start (p.rewire r).start := by
  intro v s s' hv hs
  simp only [Pipeline.start, hasAlways_rewire, ← isNonvalue hs]
  split
  · exact S.done S.hereditary.absent
  · exact parts (stepParts h) v s s' hv hs

/-- Runs that start in the same state correspond, if the calls and the sources of the pipeline
do. -/
theorem within_start {P : Value → Prop} (T : TaskRelation ω) (hP : Value.Hereditary P)
    {p : Pipeline ω}
    (hcalls : ∀ c, .call c ∈ p.ingredients → ∀ v s, P v → s.Satisfies P →
      T.tasks P (c.transform.call v s) ((r.call c).transform.call v s))
    (hsources : ∀ source fixed, .source source fixed ∈ p.ingredients → ∀ reading v s,
      T.tasks P (Op.runValue source fixed v s)
        (Op.runValue (r.source reading fixed source) fixed v s))
    {v : Value} (hv : P v) {s : State} (hs : s.Satisfies P) :
    T.tasks P (p.start v s) ((p.rewire r).start v s) :=
  start (within_respects T hP hcalls hsources) v s s hv ⟨rfl, hs⟩

end

end Simulation

end Reshape
