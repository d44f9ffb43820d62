import Mathlib.Logic.Relation
import Reshape.Proofs.Definition.Apply
import Reshape.Proofs.Definition.Operations

/-!
# References between named pipelines

A named pipeline refers to the names that its definition applies. Compiling a definition follows
these references, and it ends on every registry: with a stack of the names that are open, which
refuses those on it, applications are nested no deeper than there are registered names
(`stacked_eq`). A definition compiles exactly if it reaches no name that refers to itself in some
steps and every operation that it reaches is sound (`compile_iff_acyclic`).
-/

namespace Reshape.Definition

open Relation

variable {ω : Type}

/-- The definition applies the name. -/
def Applies (j : Json) (name : String) : Prop :=
  ∃ es, Meets j .apply es ∧ es.get? "$apply" = some (.str name)

section
variable (voc : Vocabulary ω)

/-- The pipeline registered as `a` applies `b`. -/
def Refers (a b : String) : Prop :=
  ∃ j, voc.registry.pipelines.get? a = some j ∧ Applies j b

/-- Compiling the definition leads to the name. -/
def Reaches (d : Json) (name : String) : Prop :=
  ∃ first, Applies d first ∧ ReflTransGen (Refers voc) first name

/-- Compiling the definition leads to the operation, in the definition itself or behind a name. -/
def ReachesOperation (d : Json) (m : Marker) (es : Entries Json) : Prop :=
  Meets d m es ∨
    ∃ name j, Reaches voc d name ∧ voc.registry.pipelines.get? name = some j ∧ Meets j m es

/-- The references that compiling the definition leads to have a cycle. -/
def Cyclic (d : Json) : Prop :=
  ∃ name, Reaches voc d name ∧ TransGen (Refers voc) name name

end

/-! ### Pipelines that are still closed -/

section
variable {voc : Vocabulary ω} {closed : Entries Json} {a b : String}

theorem succeeds_namedPipeline (name : String) :
    Succeeds (namedPipeline voc closed name) ↔ ∃ j, closed.get? name = some j ∧
      ∀ m es, Meets j m es →
        Sound voc (fun b => Succeeds (namedPipeline voc (closed.erase name) b)) es m := by
  refine ⟨?_, ?_⟩
  · rintro ⟨p, hp⟩
    obtain ⟨j, hj⟩ := get?_of_namedPipeline voc hp
    rw [namedPipeline_of_get? voc hj] at hp
    exact ⟨j, hj, (succeeds_steps j).1 ⟨p, hp⟩⟩
  · rintro ⟨j, hj, hsound⟩
    rw [namedPipeline_of_get? voc hj]
    exact (succeeds_steps j).2 hsound

/-- The names of pipelines that are registered. -/
abbrev Known (voc : Vocabulary ω) (name : String) : Prop :=
  voc.registry.hasPipeline name = true

theorem known_iff {name : String} :
    Known voc name ↔ ∃ j, voc.registry.pipelines.get? name = some j := by
  rw [Known, Registry.hasPipeline, Entries.contains, Option.isSome_iff_exists]

/-- The closed pipelines are registered. -/
def Registered (voc : Vocabulary ω) (closed : Entries Json) : Prop :=
  ∀ name j, closed.get? name = some j → voc.registry.pipelines.get? name = some j

theorem get?_of_get?_erase {name : String} {j : Json}
    (h : (closed.erase a).get? name = some j) : closed.get? name = some j := by
  by_cases hname : name = a
  · subst hname
    simp at h
  · rwa [Entries.get?_erase_of_ne _ hname] at h

theorem Registered.all (voc : Vocabulary ω) : Registered voc voc.registry.pipelines :=
  fun _ _ h => h

theorem Registered.erase (h : Registered voc closed) (name : String) :
    Registered voc (closed.erase name) :=
  fun other j hj => h other j (get?_of_get?_erase hj)

theorem known_of_succeeds (hclosed : Registered voc closed) {name : String}
    (h : Succeeds (namedPipeline voc closed name)) : Known voc name := by
  obtain ⟨p, hp⟩ := h
  obtain ⟨j, hj⟩ := get?_of_namedPipeline voc hp
  exact known_iff.2 ⟨j, hclosed name j hj⟩

theorem succeeds_of_erase (h : Succeeds (namedPipeline voc (closed.erase a) b)) :
    Succeeds (namedPipeline voc closed b) := by
  obtain ⟨p, hp⟩ := h
  exact ⟨p, namedPipeline_agrees voc (fun _ _ => get?_of_get?_erase) b p hp⟩

theorem namedPipeline_of_none (voc : Vocabulary ω) {name : String} (h : closed.get? name = none) :
    namedPipeline voc closed name = .error (if voc.registry.hasPipeline name then
      (Malformed.appliesItself name).fault else .unknown "pipeline" name) := by
  rw [namedPipeline]
  split
  · rename_i j hj
    simp [h] at hj
  · split <;> rfl

/-! ### References lead out of reach -/

/-- What a pipeline refers to compiles while the pipeline is open. -/
theorem succeeds_of_refers (hclosed : Registered voc closed)
    (ha : Succeeds (namedPipeline voc closed a)) (hab : Refers voc a b) :
    Succeeds (namedPipeline voc (closed.erase a) b) := by
  obtain ⟨j, hj, es, hes, hname⟩ := hab
  obtain ⟨j', hj', hsound⟩ := (succeeds_namedPipeline a).1 ha
  rw [hclosed a j' hj'] at hj
  cases hj
  obtain ⟨name, hname', hb⟩ := hsound .apply es hes
  rw [hname] at hname'
  cases hname'
  exact hb

/-- So does everything that it refers to in some steps. -/
theorem succeeds_of_transGen (hclosed : Registered voc closed)
    (ha : Succeeds (namedPipeline voc closed a)) (hab : TransGen (Refers voc) a b) :
    Succeeds (namedPipeline voc (closed.erase a) b) := by
  induction hab with
  | single hab => exact succeeds_of_refers hclosed ha hab
  | tail _ hbc ih => exact succeeds_of_erase (succeeds_of_refers (hclosed.erase a) ih hbc)

theorem succeeds_of_reflTransGen (hclosed : Registered voc closed)
    (ha : Succeeds (namedPipeline voc closed a)) (hab : ReflTransGen (Refers voc) a b) :
    Succeeds (namedPipeline voc closed b) := by
  rcases reflTransGen_iff_eq_or_transGen.1 hab with rfl | hab
  · exact ha
  · exact succeeds_of_erase (succeeds_of_transGen hclosed ha hab)

/-- A pipeline that compiles does not refer to itself, for it is out of its own reach. -/
theorem not_transGen_self (hclosed : Registered voc closed)
    (ha : Succeeds (namedPipeline voc closed a)) : ¬TransGen (Refers voc) a a := by
  intro hcycle
  obtain ⟨p, hp⟩ := succeeds_of_transGen hclosed ha hcycle
  obtain ⟨j, hj⟩ := get?_of_namedPipeline voc hp
  simp at hj

end

/-! ### Acyclic references -/

section
variable {voc : Vocabulary ω}

/-- A registered name compiles if no name that it leads to refers to itself or is open, and every
operation that it leads to is sound. -/
theorem succeeds_of_acyclic {closed : Entries Json} {name : String} (hname : Known voc name)
    (hclosed : ∀ n, ReflTransGen (Refers voc) name n →
      closed.get? n = voc.registry.pipelines.get? n)
    (hacyclic : ∀ n, ReflTransGen (Refers voc) name n → ¬TransGen (Refers voc) n n)
    (hsound : ∀ n j, ReflTransGen (Refers voc) name n → voc.registry.pipelines.get? n = some j →
      ∀ m es, Meets j m es → Sound voc (Known voc) es m) :
    Succeeds (namedPipeline voc closed name) := by
  induction hn : closed.length using Nat.strongRecOn generalizing closed name with
  | ind n ih =>
    obtain ⟨j, hj⟩ := known_iff.1 hname
    have hget : closed.get? name = some j := (hclosed name .refl).trans hj
    refine (succeeds_namedPipeline name).2 ⟨j, hget, fun m es h => ?_⟩
    refine (hsound name j .refl hj m es h).imp fun b hm hb hknown => ?_
    subst hm
    have hrefers : Refers voc name b := ⟨j, hj, es, h, hb⟩
    have hless : (closed.erase name).length < n := hn ▸ Entries.length_erase_lt hget
    refine ih _ hless hknown (fun c hc => ?_) (fun c hc => hacyclic c (.head hrefers hc))
      (fun c j hc => hsound c j (.head hrefers hc)) rfl
    -- Back at the name there would be a cycle.
    have hne : c ≠ name := by
      rintro rfl
      exact hacyclic c .refl (TransGen.head' hrefers hc)
    rw [Entries.get?_erase_of_ne _ hne]
    exact hclosed c (.head hrefers hc)

/-! ### Definitions that compile -/

section
variable {d : Json}

/-- Whatever a definition that compiles leads to compiles by itself. -/
theorem succeeds_of_reaches (h : Succeeds (compile voc d)) {name : String}
    (hname : Reaches voc d name) :
    Succeeds (namedPipeline voc voc.registry.pipelines name) := by
  obtain ⟨first, ⟨es, hes, hfirst⟩, hpath⟩ := hname
  obtain ⟨first', hfirst', hsucceeds⟩ := (succeeds_steps d).1 h .apply es hes
  rw [hfirst] at hfirst'
  cases hfirst'
  exact succeeds_of_reflTransGen (.all voc) hsucceeds hpath

theorem not_cyclic_of_succeeds (h : Succeeds (compile voc d)) : ¬Cyclic voc d := by
  rintro ⟨name, hname, hcycle⟩
  exact not_transGen_self (.all voc) (succeeds_of_reaches h hname) hcycle

theorem sound_of_succeeds (h : Succeeds (compile voc d)) {m : Marker} {es : Entries Json}
    (hm : ReachesOperation voc d m es) : Sound voc (Known voc) es m := by
  rcases hm with hm | ⟨name, j, hname, hj, hm⟩
  · exact ((succeeds_steps d).1 h m es hm).imp fun b _ _ hb => known_of_succeeds (.all voc) hb
  · obtain ⟨j', hj', hsound⟩ := (succeeds_namedPipeline name).1 (succeeds_of_reaches h hname)
    rw [hj] at hj'
    cases hj'
    have hclosed := (Registered.all voc).erase name
    exact (hsound m es hm).imp fun b _ _ hb => known_of_succeeds hclosed hb

theorem compile_of_acyclic (hacyclic : ¬Cyclic voc d)
    (hsound : ∀ m es, ReachesOperation voc d m es → Sound voc (Known voc) es m) :
    Succeeds (compile voc d) := by
  refine (succeeds_steps d).2 fun m es hm => ?_
  refine (hsound m es (.inl hm)).imp fun b happly hb hknown => ?_
  subst happly
  have hreaches {n : String} (hn : ReflTransGen (Refers voc) b n) : Reaches voc d n :=
    ⟨b, ⟨es, hm, hb⟩, hn⟩
  exact succeeds_of_acyclic hknown (fun _ _ => rfl)
    (fun n hn hcycle => hacyclic ⟨n, hreaches hn, hcycle⟩)
    (fun n j hn hj m es h => hsound m es (.inr ⟨n, j, hreaches hn, hj, h⟩))

end

theorem compile_iff_acyclic (voc : Vocabulary ω) (d : Json) :
    Succeeds (compile voc d) ↔
      ¬Cyclic voc d ∧ ∀ m es, ReachesOperation voc d m es → Sound voc (Known voc) es m := by
  refine ⟨fun h => ⟨not_cyclic_of_succeeds h, fun m es hm => sound_of_succeeds h hm⟩, ?_⟩
  rintro ⟨hacyclic, hsound⟩
  exact compile_of_acyclic hacyclic hsound

end

/-! ### The stack of open names -/

section
variable (voc : Vocabulary ω)

/-- The pipeline registered as `name`, compiled inside the pipelines named in `opened`, the
innermost first: a name among them is refused. Applications are followed down to a depth; `beyond`
stands for whatever lies deeper. -/
def stacked (beyond : String → Except Fault (Pipeline ω)) :
    Nat → List String → String → Except Fault (Pipeline ω)
  | 0, _, name => beyond name
  | depth + 1, opened, name =>
    if name ∈ opened then .error (Malformed.appliesItself name).fault
    else match voc.registry.pipeline name with
      | .ok d => steps voc (stacked beyond depth (name :: opened)) d
      | .error e => .error e

/-- The registered pipelines but those that are open. -/
def closing (opened : List String) : Entries Json :=
  opened.foldr (fun name closed => closed.erase name) voc.registry.pipelines

theorem get?_closing (opened : List String) (name : String) :
    (closing voc opened).get? name =
      if name ∈ opened then none else voc.registry.pipelines.get? name := by
  induction opened with
  | nil => simp [closing]
  | cons first rest ih =>
    rw [closing, List.foldr_cons]
    by_cases hname : name = first
    · subst hname
      simp
    · rw [Entries.get?_erase_of_ne _ hname, ← closing, ih]
      simp [hname]

/-- Open names are registered and each is open once, so the stack never grows beyond the
registry. -/
theorem stacked_eq (beyond : String → Except Fault (Pipeline ω)) {depth : Nat}
    {opened : List String} (hopened : ∀ name ∈ opened, Known voc name)
    (hdepth : (closing voc opened).length < depth)
    (name : String) :
    stacked voc beyond depth opened name = namedPipeline voc (closing voc opened) name := by
  induction depth generalizing opened name with
  | zero => omega
  | succ depth ih =>
    rw [stacked]
    split
    · rename_i hname
      have hget : (closing voc opened).get? name = none := by rw [get?_closing, if_pos hname]
      rw [namedPipeline_of_none voc hget, if_pos (hopened name hname)]
    · rename_i hname
      have hget := get?_closing voc opened name
      rw [if_neg hname] at hget
      rw [Registry.pipeline]
      cases hj : voc.registry.pipelines.get? name with
      | none =>
        rw [hj] at hget
        rw [namedPipeline_of_none voc hget, if_neg (by simp [known_iff, hj])]
      | some j =>
        rw [hj] at hget
        have hless : (closing voc (name :: opened)).length < depth :=
          Nat.lt_of_lt_of_le (Entries.length_erase_lt hget) (Nat.le_of_lt_succ hdepth)
        have hknown : ∀ other ∈ name :: opened, Known voc other :=
          List.forall_mem_cons.2 ⟨known_iff.2 ⟨j, hj⟩, hopened⟩
        rw [namedPipeline_of_get? voc hget]
        exact congrArg (steps voc · j) (funext fun other => ih hknown hless other)

end

/-- Compiling ends on every registry: followed with the stack of open names, applications are nested
at most one deeper than there are registered names, whatever would lie beyond. It has a result
exactly if the definition leads to no name that refers to itself in some steps and all operations
that it leads to are sound: their operands are of the right kind, the names in them are registered
and the factories accept their properties. A name may be applied any number of times. -/
theorem compile_ends (voc : Vocabulary ω) (d : Json) :
    (∀ beyond, steps voc (stacked voc beyond (voc.registry.pipelines.length + 1) []) d =
      compile voc d) ∧
    ((∃ p, compile voc d = .ok p) ↔
      ¬Cyclic voc d ∧ ∀ m es, ReachesOperation voc d m es → Sound voc (Known voc) es m) := by
  refine ⟨fun beyond => ?_, compile_iff_acyclic voc d⟩
  have hdepth : (closing voc []).length < voc.registry.pipelines.length + 1 := Nat.lt_succ_self _
  exact congrArg (steps voc · d) (funext fun name => stacked_eq voc beyond (by simp) hdepth name)

/-- Two pipelines that apply each other cannot be applied. -/
theorem compile_ends_cycle :
    ∃ voc : Vocabulary Unit, Known voc "a" ∧ Known voc "b" ∧
      Cyclic voc (.obj [("$apply", .str "a")]) ∧
      ∀ p, compile voc (.obj [("$apply", .str "a")]) ≠ .ok p := by
  let voc : Vocabulary Unit := { registry := { pipelines := [
    ("a", .obj [("$apply", .str "b")]),
    ("b", .arr [.str "x", .obj [("$apply", .str "a")]])] } }
  have hab : Refers voc "a" "b" := ⟨_, rfl, _, .here rfl, rfl⟩
  have hba : Refers voc "b" "a" :=
    ⟨_, rfl, _, .item (.tail _ (.head _)) (.here rfl), rfl⟩
  have hcyclic : Cyclic voc (.obj [("$apply", .str "a")]) :=
    ⟨"a", ⟨"a", ⟨_, .here rfl, rfl⟩, .refl⟩, .tail (.single hab) hba⟩
  exact ⟨voc, rfl, rfl, hcyclic, fun p hp => ((compile_ends voc _).2.1 ⟨p, hp⟩).1 hcyclic⟩

end Reshape.Definition
