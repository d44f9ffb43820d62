import Reshape.Proofs.Pipeline.Flow
import Reshape.Proofs.Pipeline.Suspension

/-!
# Where the faults of a run come from

Missing data never fails. What goes wrong in a run has gone wrong in one of the calls of the
pipeline and comes out as it is; besides, a single poll fails where it meets a suspension, and only
asynchronous calls suspend (`run_faults`). So a pipeline whose calls neither fail nor suspend has a
result for every value and all options.
-/

namespace Reshape

variable {ω : Type} {p : Pipeline ω}

/-- Some call of the pipeline fails with this fault, for some value and in some state. -/
def Pipeline.Raises (p : Pipeline ω) (e : Fault) : Prop :=
  ∃ c, .call c ∈ p.ingredients ∧ ∃ v s, (c.transform.call v s).Raises e

/-- Every fault of a run is one that a call raises. -/
theorem raises_start (p : Pipeline ω) (v : Value) (s : State) :
    (p.start v s).Ends (Task.Outcome (fun _ => True) p.Raises) := by
  refine faults_start (fun c hc v s => (Task.ends_raises _).mono fun out hout => ?_) v s
  cases out with
  | ok a => trivial
  | error e => exact ⟨c, hc, v, s, hout⟩

theorem isPrompt_of_calls
    (hp : ∀ c, .call c ∈ p.ingredients → ∀ v s, (c.transform.call v s).IsPrompt)
    (v : Value) (s : State) : (p.start v s).IsPrompt := by
  have hprompt := isPrompt_rewire (r := {}) hp v s
  rwa [rewire_id] at hprompt

theorem Transform.isAsync_of_suspending {f : Transform ω} {v : Value} {s : State}
    (h : ¬(f.call v s).IsPrompt) : f.isAsync = true := by
  cases f with
  | sync f => exact absurd (Task.isPrompt_ofState _) h
  | async f => rfl

/-- A run that suspends has an asynchronous call that can suspend. -/
theorem exists_suspending {v : Value} {s : State} {w : ω} (h : (p.start v s).Suspends w) :
    ∃ c, .call c ∈ p.ingredients ∧ c.transform.isAsync = true ∧
      ∃ v s, ¬(c.transform.call v s).IsPrompt := by
  by_contra hnone
  refine (isPrompt_of_calls (fun c hc v s => ?_) v s).not_suspends w h
  by_contra hsuspending
  exact hnone ⟨c, hc, Transform.isAsync_of_suspending hsuspending, v, s, hsuspending⟩

/-- A fault of a run is a fault that one of the calls of the pipeline raises, unchanged. A single
poll can fail in one more way, which says that it has met a suspension; then the pipeline has an
asynchronous call. So a run in which no call fails has a result if it waits, and by a single poll
if no call suspends either. What a call comes to, result or fault, is what a run comes to that has
nothing else to do. -/
theorem run_faults (p : Pipeline ω) (v : Value) (o : Options) (w : ω) :
    (∀ e, (p.runAsync v o w).1 = .error e → p.Raises e) ∧
    (∀ e, (p.run v o w).1 = .error e → p.Raises e ∨
      e = .unfinished ∧ (p.start v (.ofOptions o)).Suspends w ∧
        ∃ c, .call c ∈ p.ingredients ∧ c.transform.isAsync = true ∧
          ∃ v s, ¬(c.transform.call v s).IsPrompt) ∧
    ((∀ e, ¬p.Raises e) →
      (∃ out, (p.runAsync v o w).1 = .ok out) ∧
      ((∀ c, .call c ∈ p.ingredients → ∀ v s, (c.transform.call v s).IsPrompt) →
        ∃ out, (p.run v o w).1 = .ok out)) ∧
    (∀ c, p = [.op (.transform c) {}] → o.nonvalues.contains v = false →
      p.run v o w = (c.transform.call v (.ofOptions o)).runSync w ∧
      p.runAsync v o w = (c.transform.call v (.ofOptions o)).complete w) := by
  have hraises (e : Fault) (he : (p.runAsync v o w).1 = .error e) : p.Raises e := by
    have houtcome := (raises_start p v (.ofOptions o)).complete w
    rw [Pipeline.runAsync] at he
    rwa [he] at houtcome
  have hpoll (h : ¬(p.start v (.ofOptions o)).Suspends w) : p.run v o w = p.runAsync v o w :=
    Task.runSync_eq_complete h
  have hresult (hnone : ∀ e, ¬p.Raises e) : ∃ out, (p.runAsync v o w).1 = .ok out := by
    cases hout : (p.runAsync v o w).1 with
    | ok out => exact ⟨out, rfl⟩
    | error e => exact absurd (hraises e hout) (hnone e)
  refine ⟨hraises, fun e he => ?_, fun hnone => ⟨hresult hnone, fun hprompt => ?_⟩, ?_⟩
  · by_cases hsuspends : (p.start v (.ofOptions o)).Suspends w
    · have hunfinished : (p.run v o w).1 = .error .unfinished := Task.runSync_of_suspends hsuspends
      rw [hunfinished] at he
      exact .inr ⟨(Except.error.inj he).symm, hsuspends, exists_suspending hsuspends⟩
    · exact .inl (hraises e (hpoll hsuspends ▸ he))
  · have hprompt := isPrompt_of_calls hprompt v (.ofOptions o)
    rw [hpoll (hprompt.not_suspends w)]
    exact hresult hnone
  · rintro c rfl hv
    have hstart := start_op (s := .ofOptions o) (ω := ω) hv (.transform c)
    exact ⟨congrArg (Task.runSync · w) hstart, congrArg (Task.complete · w) hstart⟩

/-- The fault of a filter in what a lookup reads, inside a list of alternatives inside a shape, is
what the run fails with. -/
theorem run_faults_nested :
    ∃ p : Pipeline Unit, (p.run (.str "x") {} ()).1 = .error (.transform "check" "no") ∧
      p.Raises (.transform "check" "no") := by
  refine ⟨[.shape { fields := [
      { key := "a", steps := [
        .op (.alt [[.path (.move (.field "b") false)], [.op (.lookup [] [.op (.filter
          { name := "check", props := .absent,
            transform := .sync fun _ _ w => (.error (.transform "check" "no"), w) }) {}]) {}]]) {},
        .path (.move (.field "a") true)] }] }],
    rfl, ((run_faults _ (.str "x") {} ()).2.1 _ rfl).resolve_right ?_⟩
  rintro ⟨hunfinished, -⟩
  cases hunfinished

end Reshape
