import Reshape.Proofs.Pipeline.Simulation
import Reshape.Proofs.Task.Outcome

/-!
# Suspension

Where the calls of a pipeline settle and its sources are constant (`Ingredient.IsFunctional`), its
runs settle as well (`settles_start`): however the tasks of sibling fields take turns, there is one
result, or none. So a run comes to the same as the run of the pipeline without its suspensions
(`Pipeline.prompt`), and a single poll comes to the same unless it meets a suspension
(`run_suspension`).
-/

namespace Reshape

variable {ω : Type}

/-! ### Calls that settle -/

namespace TaskRelation

/-- Tasks that settle on the same result. -/
def settling : TaskRelation ω where
  tasks P t t' := ∃ result, t.Settles result ∧ t'.Settles result ∧ ∀ a ∈ result, P a
  done h := ⟨_, .done _, .done _, by simpa using h⟩
  bind := by
    intro α β P Q t t' f f' ⟨result, ht, ht', hP⟩ hf
    cases result with
    | none =>
      exact ⟨none, ht.bind (g := fun _ => none) (by simp), ht'.bind (g := fun _ => none) (by simp),
        by simp⟩
    | some a =>
      obtain ⟨result, hfa, hfa', hQ⟩ := hf a (hP a rfl)
      refine ⟨result, ht.bind (g := fun _ => result) ?_, ht'.bind (g := fun _ => result) ?_, hQ⟩
      · rintro _ ⟨⟩
        exact hfa
      · rintro _ ⟨⟩
        exact hfa'
  joinAll := by
    intro α P ts ts' h
    have hresults : ∃ results, List.Forall₂ Task.Settles ts results ∧
        List.Forall₂ Task.Settles ts' results ∧ ∀ result ∈ results, ∀ a ∈ result, P a := by
      induction h with
      | nil => exact ⟨[], .nil, .nil, by simp⟩
      | cons ht _ ih =>
        obtain ⟨result, ht, ht', hP⟩ := ht
        obtain ⟨results, hts, hts', hPs⟩ := ih
        exact ⟨result :: results, .cons ht hts, .cons ht' hts', List.forall_mem_cons.2 ⟨hP, hPs⟩⟩
    obtain ⟨results, hts, hts', hP⟩ := hresults
    exact ⟨_, .joinAll hts, .joinAll hts', fun as has a ha =>
      hP _ (Task.Settles.mem_of_joined has ha) a rfl⟩

/-- Tasks of which the second has no suspensions. -/
def prompting : TaskRelation ω where
  tasks P _ t' := t'.IsPrompt ∧ ∀ a, t'.Returns a → P a
  done h := ⟨trivial, fun _ hb => hb ▸ h⟩
  bind := by
    intro α β P Q t t' f f' ⟨ht, hP⟩ hf
    refine ⟨ht.bind fun a ha => (hf a (hP a ha)).1, fun b hb => ?_⟩
    obtain ⟨a, ha, hb⟩ := (Task.returns_bind ..).1 hb
    exact (hf a (hP a ha)).2 b hb
  joinAll := by
    intro α P ts ts' h
    have hts' : ∀ t' ∈ ts', t'.IsPrompt ∧ ∀ a, t'.Returns a → P a := by
      induction h with
      | nil => simp
      | cons ht _ ih => exact List.forall_mem_cons.2 ⟨ht, ih⟩
    refine ⟨.joinAll fun t' ht' => (hts' t' ht').1, fun as has => ?_⟩
    have hreturns := (Task.returns_joinAll ..).1 has
    clear has h
    induction hreturns with
    | nil => simp
    | cons ha _ ih =>
      obtain ⟨ht', hrest⟩ := List.forall_mem_cons.1 hts'
      exact List.forall_mem_cons.2 ⟨ht'.2 _ ha, ih hrest⟩

/-- The same tasks, with no other faults than those in `F`. -/
def failing (F : Fault → Prop) : TaskRelation ω where
  tasks P t t' := t = t' ∧ t.Ends (Task.Outcome P F)
  done h := ⟨rfl, h⟩
  bind := by
    rintro α β P Q t _ f f' ⟨rfl, ht⟩ hf
    refine ⟨Task.bind_congr_returns fun a ha => (hf a (ht.of_returns ha)).1,
      (Task.ends_bind ..).2 (Task.Ends.mono (fun out hout => ?_) ht)⟩
    cases out with
    | ok a => exact (hf a hout).2
    | error e => exact hout
  joinAll := by
    intro α P ts ts' h
    have hts : ts = ts' ∧ ∀ t ∈ ts, t.Ends (Task.Outcome P F) := by
      induction h with
      | nil => exact ⟨rfl, by simp⟩
      | cons ht _ ih => exact ⟨congrArg₂ List.cons ht.1 ih.1, List.forall_mem_cons.2 ⟨ht.2, ih.2⟩⟩
    exact ⟨congrArg Task.joinAll hts.1, .joinAll hts.2⟩

end TaskRelation

/-! ### Removing suspensions -/

/-- The transform without its suspensions. -/
def Transform.prompt : Transform ω → Transform ω
  | sync f => sync f
  | async f => async fun v s => (f v s).prompt

/-- Removes the suspensions of calls. -/
def Rewiring.prompt : Rewiring ω where
  call c := { c with transform := c.transform.prompt }

/-- The pipeline without the suspensions of its calls. -/
def Pipeline.prompt (p : Pipeline ω) : Pipeline ω :=
  p.rewire .prompt

namespace Ingredient

/-- A call that settles on one outcome for each value and state, or a constant. -/
def IsFunctional : Ingredient ω → Prop
  | call c => ∀ v s, ∃ result, (c.transform.call v s).Settles result
  | source (.constant _) _ => True
  | source (.generator _ _) _ => False
  | shape _ => True

/-- A call that never fails like a run that has met a suspension. -/
def NeverUnfinished : Ingredient ω → Prop
  | call c => ∀ v s, (c.transform.call v s).Ends (Task.Outcome (fun _ => True) (· ≠ .unfinished))
  | _ => True

end Ingredient

theorem Value.hereditary_true : Hereditary fun _ => True :=
  ⟨trivial, fun _ => by simp, trivial, fun _ _ _ => trivial, fun _ _ _ _ _ => trivial⟩

theorem Task.settles_prompt {α : Type} {t : Task ω α} {result : Option α} (h : t.Settles result) :
    t.prompt.Settles result :=
  (ends_prompt t).2 h

theorem Transform.settles_prompt (f : Transform ω) {v : Value} {s : State} {result : Option Value}
    (h : (f.call v s).Settles result) : (f.prompt.call v s).Settles result := by
  cases f with
  | sync f => exact h
  | async f => exact Task.settles_prompt h

theorem Task.isPrompt_ofState {α : Type} (f : ω → Except Fault α × ω) : (ofState f).IsPrompt := by
  intro w
  dsimp only
  split <;> trivial

theorem Transform.isPrompt_prompt (f : Transform ω) (v : Value) (s : State) :
    (f.prompt.call v s).IsPrompt := by
  cases f with
  | sync f => exact Task.isPrompt_ofState _
  | async f => exact Task.isPrompt_prompt _

/-! ### Runs -/

section
variable {p : Pipeline ω}

/-- A run and the run without suspensions settle on the same result. -/
theorem settles_start (hp : ∀ i ∈ p.ingredients, i.IsFunctional) (v : Value) (s : State) :
    ∃ result, (p.start v s).Settles result ∧ (p.prompt.start v s).Settles result := by
  have hruns : TaskRelation.settling.tasks (fun _ => True) (p.start v s) (p.prompt.start v s) := by
    refine Simulation.within_start _ Value.hereditary_true (fun c hc v s _ _ => ?call)
      (fun source fixed hsource _ v s => ?source) trivial s.satisfies_true
    case call =>
      obtain ⟨result, hsettles⟩ := hp _ hc v s
      exact ⟨result, hsettles, c.transform.settles_prompt hsettles, fun _ _ => trivial⟩
    case source =>
      cases source with
      | constant c => exact Simulation.runValue_constant _ trivial trivial fixed v s
      | generator => exact (hp _ hsource).elim
  obtain ⟨result, hsettles, hprompt, -⟩ := hruns
  exact ⟨result, hsettles, hprompt⟩

theorem Source.isPrompt_runValue (source : Source ω) (fixed : Bool) (v : Value) (s : State) :
    (Op.runValue source fixed v s).IsPrompt := by
  rw [Op.runValue]
  split
  · trivial
  · cases source with
    | constant c => trivial
    | generator identity next => exact Task.isPrompt_ofState _

theorem Source.ends_runValue {F : Fault → Prop} (source : Source ω) (fixed : Bool) (v : Value)
    (s : State) : (Op.runValue source fixed v s).Ends (Task.Outcome (fun _ => True) F) := by
  rw [Op.runValue]
  split
  · trivial
  · cases source with
    | constant c => trivial
    | generator identity next => exact fun w => trivial

/-- Only calls suspend. -/
theorem isPrompt_rewire {r : Rewiring ω}
    (hp : ∀ c, .call c ∈ p.ingredients → ∀ v s, ((r.call c).transform.call v s).IsPrompt)
    (v : Value) (s : State) : ((p.rewire r).start v s).IsPrompt := by
  have hruns : TaskRelation.prompting.tasks (fun _ => True) (p.start v s)
      ((p.rewire r).start v s) :=
    Simulation.within_start .prompting Value.hereditary_true
      (fun c hc v s _ _ => ⟨hp c hc v s, fun _ _ => trivial⟩)
      (fun source fixed _ reading v s =>
        ⟨(r.source reading fixed source).isPrompt_runValue fixed v s, fun _ _ => trivial⟩)
      trivial s.satisfies_true
  exact hruns.1

theorem isPrompt_start (p : Pipeline ω) (v : Value) (s : State) :
    (p.prompt.start v s).IsPrompt :=
  isPrompt_rewire (r := .prompt) (fun c _ => c.transform.isPrompt_prompt) v s

/-- Only calls fail: what holds of all their faults holds of the faults of a run. -/
theorem faults_start {F : Fault → Prop}
    (hp : ∀ c, .call c ∈ p.ingredients → ∀ v s,
      (c.transform.call v s).Ends (Task.Outcome (fun _ => True) F))
    (v : Value) (s : State) : (p.start v s).Ends (Task.Outcome (fun _ => True) F) := by
  have hruns : (TaskRelation.failing F).tasks (fun _ => True) (p.start v s)
      ((p.rewire {}).start v s) :=
    Simulation.within_start (.failing F) Value.hereditary_true
      (fun c hc v s _ _ => ⟨rfl, hp c hc v s⟩)
      (fun source fixed _ _ v s => ⟨rfl, source.ends_runValue fixed v s⟩) trivial s.satisfies_true
  exact hruns.2

/-- No run fails like one that has met a suspension, unless a call does. -/
theorem neverUnfinished_start (hp : ∀ i ∈ p.ingredients, i.NeverUnfinished) (v : Value)
    (s : State) : (p.start v s).Ends (Task.Outcome (fun _ => True) (· ≠ .unfinished)) :=
  faults_start (fun c hc => hp (.call c) hc) v s

/-- Suspension does not change what a run comes to. A run that waits gives a result exactly if the
run without suspensions gives it, and a fault exactly if that run gives one; host states do not
matter to either. A single poll gives what waiting gives, or meets a suspension and fails; so the
two agree where nothing suspends, and there only, as long as no call itself fails in the same
way. -/
theorem run_suspension (hp : ∀ i ∈ p.ingredients, i.IsFunctional) (v : Value) (o : Options) :
    (∀ w w' out, (p.runAsync v o w).1 = .ok out ↔ (p.prompt.runAsync v o w').1 = .ok out) ∧
    (∀ w w', (∃ e, (p.runAsync v o w).1 = .error e) ↔
      ∃ e, (p.prompt.runAsync v o w').1 = .error e) ∧
    (∀ w, p.prompt.run v o w = p.prompt.runAsync v o w) ∧
    (∀ w, ¬(p.start v (.ofOptions o)).Suspends w → p.run v o w = p.runAsync v o w) ∧
    (∀ w, (p.start v (.ofOptions o)).Suspends w → (p.run v o w).1 = .error .unfinished) ∧
    (∀ w, (p.run v o w).1 = (p.runAsync v o w).1 ↔
      ¬(p.start v (.ofOptions o)).Suspends w ∨ (p.runAsync v o w).1 = .error .unfinished) ∧
    ((∀ i ∈ p.ingredients, i.NeverUnfinished) → ∀ w,
      (p.run v o w).1 = (p.runAsync v o w).1 ↔ ¬(p.start v (.ofOptions o)).Suspends w) := by
  obtain ⟨result, hwaits, hprompt⟩ := settles_start hp v (.ofOptions o)
  have hasync (w : ω) : (p.runAsync v o w).1.toOption = result := hwaits.complete w
  have hasync' (w : ω) : (p.prompt.runAsync v o w).1.toOption = result := hprompt.complete w
  have hsync (w : ω) (h : ¬(p.start v (.ofOptions o)).Suspends w) :
      p.run v o w = p.runAsync v o w := Task.runSync_eq_complete h
  have hfails (w : ω) (h : (p.start v (.ofOptions o)).Suspends w) :
      (p.run v o w).1 = .error .unfinished := Task.runSync_of_suspends h
  have hagree (w : ω) : (p.run v o w).1 = (p.runAsync v o w).1 ↔
      ¬(p.start v (.ofOptions o)).Suspends w ∨ (p.runAsync v o w).1 = .error .unfinished := by
    by_cases hsuspends : (p.start v (.ofOptions o)).Suspends w
    · simp [hsuspends, hfails w hsuspends, eq_comm]
    · simp [hsuspends, hsync w hsuspends]
  refine ⟨fun w w' out => ?_, fun w w' => ?_, fun w => ?_, hsync, hfails, hagree,
    fun hnever w => (hagree w).trans (or_iff_left fun hunfinished => ?_)⟩
  · rw [← Task.toOption_eq_some, ← Task.toOption_eq_some, hasync, hasync']
  · rw [← Task.toOption_eq_none, ← Task.toOption_eq_none, hasync, hasync']
  · exact Task.runSync_eq_complete ((isPrompt_start p v _).not_suspends w)
  · have houtcome := (neverUnfinished_start hnever v (.ofOptions o)).complete w
    rw [Pipeline.runAsync] at hunfinished
    rw [hunfinished] at houtcome
    exact houtcome rfl

end

/-- Gives its value at the second poll. -/
def Call.late : Call Unit where
  name := "late"
  props := .absent
  transform := .async fun v _ => .wait (.done v)

theorem run_suspension_late :
    ∃ p : Pipeline Unit, (∀ i ∈ p.ingredients, i.IsFunctional) ∧
      (p.run (.str "x") {} ()).1 = .error .unfinished ∧
      (p.runAsync (.str "x") {} ()).1 = .ok (.map [("a", .str "x"), ("b", .str "x")]) ∧
      (p.prompt.runAsync (.str "x") {} ()).1 = .ok (.map [("a", .str "x"), ("b", .str "x")]) := by
  refine ⟨[.shape { fields := [
      { key := "a", steps := [
        .op (.transform .late) {}, .path (.move (.field "a") true)] },
      { key := "b", steps := [
        .op (.lookup [.op (.transform .late) {}] [.op (.transform .late) {}]) {},
        .path (.move (.field "b") true)] }] }],
    ?functional, (run_suspension ?functional (.str "x") {}).2.2.2.2.1 () ⟨_, rfl⟩, rfl,
    ((run_suspension ?functional (.str "x") {}).1 () () _).1 rfl⟩
  intro i hi
  rcases List.mem_cons.1 hi with rfl | hi
  · trivial
  · have hcalls : i ∈ List.replicate 3 (.call .late) := hi
    cases List.eq_of_mem_replicate hcalls
    exact fun v _ => ⟨some v, rfl⟩

end Reshape
