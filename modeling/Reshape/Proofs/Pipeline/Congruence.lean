import Reshape.Proofs.Pipeline.Suspension

/-!
# Equal runs

A `StateRelation` relates states in which everything but a call acts alike. If the calls of a
pipeline come to equal tasks in related states, whatever they are replaced by, then so do its runs
(`StateRelation.start_eq`).
-/

namespace Reshape

variable {ω : Type}

structure StateRelation where
  states : State → State → Prop
  alike {s s' : State} (h : states s s') : s.Alike s'
  noDefaults {s s' : State} (h : states s s') : s.noDefaults = s'.noDefaults
  move {s s' : State} (h : states s s') (context : Context) (target : Option Value) :
    states { s with context, target } { s' with context, target }
  reader {s s' : State} (h : states s s') : states s.reader s'.reader

namespace StateRelation

variable (R : StateRelation)

/-- The simulation of equal tasks in related states. -/
def simulation : Simulation ω where
  toTaskRelation := .failing fun _ => True
  good _ := True
  hereditary := Value.hereditary_true
  states _ := R.states
  alike := R.alike
  target _ := by simp
  context _ := by simp
  move h _ _ _ _ := R.move h _ _
  reader := R.reader

theorem start_eq {f : Call ω → Call ω} {p : Pipeline ω}
    (hcalls : ∀ c, .call c ∈ p.ingredients → ∀ v s s', R.states s s' →
      s.isNonvalue v = false ∨ s.always = true →
        c.transform.call v s = (f c).transform.call v s')
    (hshapes : ∀ sh, .shape sh ∈ p.ingredients → ∀ s s', R.states s s' →
      R.states (sh.enter s) (sh.enter s'))
    (v : Value) {s s' : State} (hs : R.states s s') :
    p.start v s = (p.rewire { call := f }).start v s' := by
  refine (Simulation.start (S := R.simulation) (r := { call := f }) (fun i hi _ => ?_) v s s'
    trivial hs).1
  cases i with
  | call c =>
    intro v s s' _ hs hpresent
    exact ⟨hcalls c hi v s s' hs hpresent, Task.ends_outcome _⟩
  | source source fixed =>
    intro v s s' hs
    refine ⟨?_, Task.ends_outcome _⟩
    rw [Op.runValue, Op.runValue, R.noDefaults hs]
  | shape sh => exact hshapes sh hi

end StateRelation

end Reshape
