import Reshape.Proofs.Pipeline.Suspension

/-!
# Leaving defaults out

A run that leaves defaults out is a run of the pipeline that has none: of the pipeline with every
value step that is not fixed turned into one that supplies absence (`run_noDefaults`). Such a run
passes its flag on to all the runs inside it, except to what lookups read; there all value steps
stay as they are.
-/

namespace Reshape

variable {ω : Type} {p : Pipeline ω}

/-- Puts absence in the place of every value that is not fixed, except in what lookups read. -/
def Rewiring.erasing : Rewiring ω where
  source reading fixed source := if reading || fixed then source else .constant .absent

/-- The pipeline in which all value steps that are not fixed, at any depth outside of lookups,
supply absence. -/
def Pipeline.withoutDefaults (p : Pipeline ω) : Pipeline ω :=
  p.rewire .erasing

/-- The call does not look at whether defaults are left out. -/
def Call.IgnoresDefaults (c : Call ω) : Prop :=
  ∀ v s noDefaults, c.transform.call v { s with noDefaults } = c.transform.call v s

theorem Op.runValue_erasing (source : Source ω) (fixed : Bool) (v : Value) {s : State}
    (hs : s.noDefaults = true) (noDefaults : Bool) :
    Op.runValue (Rewiring.erasing.source false fixed source) fixed v { s with noDefaults } =
      Op.runValue source fixed v s := by
  cases fixed with
  | true => simp [Op.runValue, Rewiring.erasing]
  | false => simp [Op.runValue, Rewiring.erasing, Source.produce, hs]

/-- The simulation of runs of which the first leaves defaults out. Lookups read in the same state in
both. -/
def Simulation.leavingOut : Simulation ω where
  toTaskRelation := .failing fun _ => True
  good _ := True
  hereditary := Value.hereditary_true
  states
    | false, s, s' => s.noDefaults = true ∧ ∃ noDefaults, s' = { s with noDefaults }
    | true, s, s' => s' = s
  alike := by
    rintro (_ | _) s _ hs
    · obtain ⟨-, _, rfl⟩ := hs
      exact ⟨rfl, rfl, rfl, rfl, rfl⟩
    · obtain rfl := hs
      exact ⟨rfl, rfl, rfl, rfl, rfl⟩
  target _ := by simp
  context _ := by simp
  move := by
    rintro (_ | _) s _ hs context _ target _
    · obtain ⟨hs, noDefaults, rfl⟩ := hs
      exact ⟨hs, noDefaults, rfl⟩
    · obtain rfl := hs
      rfl
  reader := by
    rintro (_ | _) s _ hs
    · obtain ⟨-, _, rfl⟩ := hs
      rfl
    · exact congrArg State.reader hs

theorem start_withoutDefaults (hp : ∀ c, .call c ∈ p.ingredients → c.IgnoresDefaults) (v : Value)
    {s : State} (hs : s.noDefaults = true) (noDefaults : Bool) :
    p.start v s = p.withoutDefaults.start v { s with noDefaults } := by
  refine (Simulation.start (S := .leavingOut) (r := .erasing) (fun i hi reading => ?_) v s _ trivial
    ⟨hs, noDefaults, rfl⟩).1
  cases reading with
  | false =>
    cases i with
    | call c =>
      rintro v s _ - ⟨-, noDefaults, rfl⟩ -
      exact ⟨(hp c hi v s noDefaults).symm, Task.ends_outcome _⟩
    | source source fixed =>
      rintro v s _ ⟨hs, noDefaults, rfl⟩
      exact ⟨(Op.runValue_erasing source fixed v hs noDefaults).symm, Task.ends_outcome _⟩
    | shape sh =>
      rintro s _ ⟨hs, noDefaults, rfl⟩
      exact ⟨by simp [Shape.enter, hs], noDefaults || sh.noDefaults, rfl⟩
  | true =>
    cases i with
    | call c =>
      rintro v s _ - rfl -
      exact ⟨rfl, Task.ends_outcome _⟩
    | source source fixed =>
      rintro v s _ rfl
      exact ⟨rfl, Task.ends_outcome _⟩
    | shape sh =>
      rintro s _ rfl
      rfl

/-- Leaving defaults out comes to the same as having none outside of lookups, which leave none out,
whatever else the options say, if no call looks at whether defaults are left out. -/
theorem run_noDefaults (hp : ∀ c, .call c ∈ p.ingredients → c.IgnoresDefaults) (v : Value)
    (o : Options) (w : ω) :
    p.run v { o with noDefaults := true } w =
        p.withoutDefaults.run v { o with noDefaults := false } w ∧
      p.runAsync v { o with noDefaults := true } w =
        p.withoutDefaults.runAsync v { o with noDefaults := false } w := by
  have hstart :=
    start_withoutDefaults hp v (s := .ofOptions { o with noDefaults := true }) rfl false
  exact ⟨congrArg (Task.runSync · w) hstart, congrArg (Task.complete · w) hstart⟩

/-- A last alternative and an applied pipeline supply nothing, and a transform behind them is not
called; what is fixed stays. -/
theorem run_noDefaults_fixed :
    ∃ p : Pipeline Unit, (∀ c, .call c ∈ p.ingredients → c.IgnoresDefaults) ∧
      (p.run (.map []) {} ()).1 =
        .ok (.map [("n", .int 0), ("t", .str "x"), ("f", .str "fixed")]) ∧
      p.run (.map []) { noDefaults := true } () =
        p.withoutDefaults.run (.map []) { noDefaults := false } () ∧
      (p.withoutDefaults.run (.map []) { noDefaults := false } ()).1 =
        .ok (.map [("f", .str "fixed")]) := by
  refine ⟨[.shape { fields := [
      { key := "n", steps := [
        .op (.alt [[.path (.move (.field "a") false)], [.constant (.int 0)]]) {},
        .path (.move (.field "n") true)] },
      { key := "t", steps := [.op (.apply "default" [.constant (.str "x")]) {},
        .op (.transform { name := "same", props := .absent, transform := .pure id }) {},
        .path (.move (.field "t") true)] },
      { key := "f", steps := [.op (.value (.constant (.str "fixed")) true) {},
        .path (.move (.field "f") true)] }] }],
    ?ignores, rfl, (run_noDefaults ?ignores _ {} ()).1, rfl⟩
  intro c hc
  have hcall : c = { name := "same", props := .absent, transform := .pure id } := by
    simpa [Pipeline.ingredients, stepsIngredients, Step.ingredients, shapeIngredients,
      fieldsIngredients, opIngredients, pipelinesIngredients, Step.constant] using hc
  subst hcall
  exact fun _ _ _ => rfl

end Reshape
