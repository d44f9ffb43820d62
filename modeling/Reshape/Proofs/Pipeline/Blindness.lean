import Reshape.Proofs.Pipeline.Congruence

/-!
# Calls and nonvalues

Unless some shape runs on nonvalues, be it in a lookup (`Pipeline.NeverAlways`), the calls of a
pipeline are asked about values only. What a call would make of a nonvalue has no influence on any
run (`run_blind`).
-/

namespace Reshape

variable {ω : Type} {p : Pipeline ω} {ns : Nonvalues}

/-- Two calls that come to the same on everything that is no nonvalue. -/
def Call.AgreesBeyond (ns : Nonvalues) (c c' : Call ω) : Prop :=
  ∀ v s, ns.contains v = false → c.transform.call v s = c'.transform.call v s

/-- The call with its name and its dealings with nonvalues forgotten. -/
def Call.blind (ns : Nonvalues) (c : Call ω) : Call ω where
  name := ""
  props := .absent
  transform := .async fun v s => if ns.contains v then .done .absent else c.transform.call v s

/-- The pipeline with all dealings of its calls with nonvalues forgotten. -/
def Pipeline.blind (ns : Nonvalues) (p : Pipeline ω) : Pipeline ω :=
  p.rewire { call := Call.blind ns }

theorem Call.agreesBeyond_blind (c : Call ω) : c.AgreesBeyond ns (c.blind ns) := by
  intro v s hv
  simp [blind, Transform.call, hv]

/-- No shape of the pipeline runs on nonvalues, at any depth. Unlike `Pipeline.hasAlways` this
counts the shapes inside lookups too. -/
def Pipeline.NeverAlways (p : Pipeline ω) : Prop :=
  ∀ i ∈ p.ingredients, i.isAlways = false

theorem Pipeline.neverAlways_rewire (r : Rewiring ω) :
    (p.rewire r).NeverAlways ↔ p.NeverAlways := by
  have hmap {is : List (Ingredient ω)} : (∀ i ∈ is, i.isAlways = false) ↔
      ∀ always ∈ is.map Ingredient.isAlways, always = false := by simp
  rw [NeverAlways, hmap, map_isAlways_rewire, ← hmap, NeverAlways]

/-- Equal states in which no operation runs on nonvalues. -/
def StateRelation.withoutAlways (ns : Nonvalues) : StateRelation where
  states s s' := s = s' ∧ s.always = false ∧ s.nonvalues = ns
  alike := by
    rintro s _ ⟨rfl, -⟩
    exact ⟨rfl, rfl, rfl, rfl, rfl⟩
  noDefaults h := congrArg State.noDefaults h.1
  move := by
    rintro s _ ⟨rfl, hs⟩ context target
    exact ⟨rfl, hs⟩
  reader := by
    rintro s _ ⟨rfl, -, hns⟩
    exact ⟨rfl, rfl, hns⟩

/-- Other calls in place of those of a pipeline make no difference where they differ on nonvalues
only. -/
theorem start_rewire_beyond (hp : p.NeverAlways) {f : Call ω → Call ω}
    (hf : ∀ c, .call c ∈ p.ingredients → c.AgreesBeyond ns (f c)) (v : Value) {s : State}
    (halways : s.always = false) (hns : s.nonvalues = ns) :
    p.start v s = (p.rewire { call := f }).start v s := by
  refine (StateRelation.withoutAlways ns).start_eq (fun c hc v s s' hs hpresent => ?_)
    (fun sh hsh s s' hs => ?_) v ⟨rfl, halways, hns⟩
  · obtain ⟨rfl, halways, rfl⟩ := hs
    exact hf c hc v s (hpresent.resolve_right (by simp [halways]))
  · obtain ⟨rfl, halways, rfl⟩ := hs
    have hshape : sh.always = false := hp (.shape sh) hsh
    exact ⟨rfl, by simp [Shape.enter, halways, hshape], rfl⟩

theorem start_blind (hp : p.NeverAlways) (v : Value) {s : State}
    (halways : s.always = false) (hns : s.nonvalues = ns) :
    p.start v s = (p.blind ns).start v s :=
  start_rewire_beyond hp (fun c _ => c.agreesBeyond_blind) v halways hns

/-- In a pipeline in which no shape runs on nonvalues, calls can be replaced by any others that come
to the same on everything that is no nonvalue: calls by a function of theirs, or each call by
itself, so that the pipelines are equal once the dealings of their calls with nonvalues are
forgotten. -/
theorem run_blind (hp : p.NeverAlways) (v : Value) (o : Options) (w : ω) :
    (∀ f : Call ω → Call ω, (∀ c, .call c ∈ p.ingredients → c.AgreesBeyond o.nonvalues (f c)) →
      (p.rewire { call := f }).run v o w = p.run v o w ∧
      (p.rewire { call := f }).runAsync v o w = p.runAsync v o w) ∧
    (∀ p' : Pipeline ω, p'.blind o.nonvalues = p.blind o.nonvalues →
      p'.run v o w = p.run v o w ∧ p'.runAsync v o w = p.runAsync v o w) := by
  refine ⟨fun f hf => ?_, fun p' hp' => ?_⟩
  · have hstart := start_rewire_beyond hp hf v (s := .ofOptions o) rfl rfl
    exact ⟨congrArg (Task.runSync · w) hstart.symm, congrArg (Task.complete · w) hstart.symm⟩
  · have halways : p'.NeverAlways := by
      rwa [← Pipeline.neverAlways_rewire, ← Pipeline.blind, hp', Pipeline.blind,
        Pipeline.neverAlways_rewire]
    have hstart : p'.start v (.ofOptions o) = p.start v (.ofOptions o) := by
      rw [start_blind halways v rfl rfl, start_blind hp v rfl rfl]
      exact congrArg (Pipeline.start · v (.ofOptions o)) hp'
    exact ⟨congrArg (Task.runSync · w) hstart, congrArg (Task.complete · w) hstart⟩

/-- A filter and an iterated transform never meet the null among the items of a sequence, and what a
lookup reads keys with never meets the null among the keys. -/
theorem run_blind_items :
    ∃ (p : Pipeline Unit) (f : Call Unit → Call Unit),
      p.NeverAlways ∧
      (∀ c, .call c ∈ p.ingredients → c.AgreesBeyond { added := [.null] } (f c)) ∧
      (∀ c s, (f c).transform.call .null s = .fail (.internal "null")) ∧
      (p.rewire { call := f }).run (.seq [.null, .str "x"])
          { nonvalues := { added := [.null] } } () =
        p.run (.seq [.null, .str "x"]) { nonvalues := { added := [.null] } } () ∧
      (p.run (.seq [.null, .str "x"]) { nonvalues := { added := [.null] } } ()).1 =
        .ok (.seq [.map [("key", .str "x")]]) := by
  have hagree (c : Call Unit) : c.AgreesBeyond { added := [.null] } { c with
      transform := .async fun v s =>
        if Nonvalues.contains { added := [.null] } v then .fail (.internal "null")
        else c.transform.call v s } := by
    intro v s hv
    simp [Transform.call, hv]
  refine ⟨[
      .op (.transform { name := "id", props := .absent, transform := .pure id })
        { iterate := true },
      .op (.filter { name := "id", props := .absent, transform := .pure id }) {},
      .op (.lookup
        [.op (.value (.constant (.seq [.map [("key", .null)], .map [("key", .str "x")]])) true) {}]
        [.path (.move (.field "key") false),
          .op (.transform { name := "id", props := .absent, transform := .pure id }) {}]) {}],
    _, ?never, fun c _ => hagree c, fun _ _ => rfl,
    ((run_blind ?never _ { nonvalues := { added := [.null] } } ()).1 _ fun c _ => hagree c).1, rfl⟩
  intro i hi
  revert i
  decide

end Reshape
