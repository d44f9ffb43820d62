import Mathlib.Data.List.Chain
import Reshape.Proofs.Pipeline.Seams

/-!
# Segmentation

What it means to group the steps of a pipeline into segments (`Segment.Partitions`): nothing is lost
or reordered, the steps of a path segment have its mode, no segment is empty, and no two neighbours
are path segments of one mode. The segments of a run are the only grouping of this kind
(`partitions_iff`). One pass from left to right finds them (`foldl_extend`), and the opposite
direction groups the steps alike, with the modes exchanged (`ofParts_unique`).
-/

namespace Reshape

namespace Segment

variable {β : Type} {d : Direction} {ps : List (Part β)} {segments : List (Segment β)}

/-! ### Segments in one mode -/

/-- Every step of a path segment has the mode of the segment. -/
def InMode (d : Direction) : Segment β → Prop
  | path mode steps => ∀ step ∈ steps, step.mode d = some mode
  | _ => True

theorem inMode_consPath {mode : Mode} {step : PathStep} (hstep : step.mode d = some mode)
    {segments : List (Segment β)} (h : ∀ seg ∈ segments, seg.InMode d) :
    ∀ seg ∈ consPath mode step segments, seg.InMode d := by
  have hsingle : (path mode [step] : Segment β).InMode d := by simpa [InMode] using hstep
  rcases segments with _ | ⟨⟨m, steps⟩ | _ | _, rest⟩
  · simpa [consPath] using hsingle
  · obtain ⟨hfirst, hrest⟩ := List.forall_mem_cons.1 h
    simp only [consPath]
    split
    · rename_i hm
      subst hm
      exact List.forall_mem_cons.2 ⟨List.forall_mem_cons.2 ⟨hstep, hfirst⟩, hrest⟩
    · exact List.forall_mem_cons.2 ⟨hsingle, h⟩
  · exact List.forall_mem_cons.2 ⟨hsingle, h⟩
  · exact List.forall_mem_cons.2 ⟨hsingle, h⟩

theorem inMode_ofParts (d : Direction) (ps : List (Part β)) :
    ∀ seg ∈ ofParts d ps, seg.InMode d := by
  induction ps with
  | nil => simp [ofParts]
  | cons p rest ih =>
    rcases p with (_ | _) | _
    · exact inMode_consPath rfl ih
    · exact List.forall_mem_cons.2 ⟨trivial, ih⟩
    · exact List.forall_mem_cons.2 ⟨trivial, ih⟩

theorem modeAt_of_mem {mode : Mode} {steps : List PathStep}
    (h : (path mode steps : Segment β).InMode d) {p : Part β} (hp : p ∈ (path mode steps).parts) :
    modeAt d p = some mode := by
  obtain ⟨step, hstep, rfl⟩ := List.mem_map.1 hp
  exact h step hstep

/-- What has no mode shares its segment with nothing. -/
theorem parts_eq_singleton {seg : Segment β} (h : seg.InMode d) {p : Part β} (hp : p ∈ seg.parts)
    (hmode : modeAt d p = none) : seg.parts = [p] := by
  cases seg with
  | path mode steps => cases (modeAt_of_mem h hp).symm.trans hmode
  | barrier blocks => exact congrArg ([·]) (List.mem_singleton.1 hp).symm
  | other b => exact congrArg ([·]) (List.mem_singleton.1 hp).symm

/-- The segment that a part makes by itself. -/
def alone (d : Direction) : Part β → Segment β
  | .inl (.move m inverted) => path (modeOf d inverted) [.move m inverted]
  | .inl (.barrier blocks) => barrier blocks
  | .inr b => other b

@[simp] theorem parts_alone (d : Direction) (p : Part β) : (alone d p).parts = [p] := by
  rcases p with (_ | _) | _ <;> rfl

theorem inMode_alone (d : Direction) (p : Part β) : (alone d p).InMode d := by
  rcases p with (_ | _) | _
  · exact List.forall_mem_singleton.2 rfl
  · trivial
  · trivial

/-! ### Segments that are apart -/

/-- Two segments that are not path segments of one mode. -/
def Apart : Segment β → Segment β → Prop
  | path m _, path m' _ => m ≠ m'
  | _, _ => True

theorem Apart.symm {a b : Segment β} (h : a.Apart b) : b.Apart a := by
  cases a with
  | path m steps =>
    cases b with
    | path m' steps' => exact Ne.symm h
    | _ => trivial
  | _ => cases b <;> trivial

/-- It does not matter which steps the segments have. -/
theorem Apart.steps {mode : Mode} {steps : List PathStep} {b : Segment β}
    (h : (path mode steps).Apart b) (steps' : List PathStep) : (path mode steps').Apart b := by
  cases b <;> exact h

/-- Segments that are apart have no parts that fuse. -/
theorem Apart.not_fuses {a b : Segment β} (h : a.Apart b) (ha : a.InMode d) (hb : b.InMode d)
    {p q : Part β} (hp : p ∈ a.parts) (hq : q ∈ b.parts) : ¬Fuses d p q := by
  rintro ⟨mode, hpmode, hqmode⟩
  cases a with
  | path m steps =>
    cases b with
    | path m' steps' =>
      have hm := (modeAt_of_mem ha hp).symm.trans hpmode
      have hm' := (modeAt_of_mem hb hq).symm.trans hqmode
      exact h (Option.some.inj (hm.trans hm'.symm))
    | _ =>
      cases List.mem_singleton.1 hq
      cases hqmode
  | _ =>
    cases List.mem_singleton.1 hp
    cases hpmode

/-! ### Partitions -/

/-- A grouping of steps into maximal segments. -/
structure Partitions (d : Direction) (ps : List (Part β)) (segments : List (Segment β)) : Prop where
  parts_eq : segments.flatMap parts = ps
  inMode : ∀ seg ∈ segments, seg.InMode d
  nonempty : ∀ seg ∈ segments, seg.parts ≠ []
  apart : segments.IsChain Apart

namespace Partitions

theorem nil (d : Direction) : Partitions d [] ([] : List (Segment β)) where
  parts_eq := rfl
  inMode := by simp
  nonempty := by simp
  apart := .nil

theorem tail {seg : Segment β} (h : Partitions d ps (seg :: segments)) :
    Partitions d (segments.flatMap parts) segments where
  parts_eq := rfl
  inMode := (List.forall_mem_cons.1 h.inMode).2
  nonempty := (List.forall_mem_cons.1 h.nonempty).2
  apart := h.apart.tail

/-- One more segment in front, apart from the first one. -/
theorem cons (h : Partitions d ps segments) (seg : Segment β) (hmode : seg.InMode d)
    (hne : seg.parts ≠ []) (hapart : ∀ first ∈ segments.head?, seg.Apart first) :
    Partitions d (seg.parts ++ ps) (seg :: segments) where
  parts_eq := congrArg (seg.parts ++ ·) h.parts_eq
  inMode := List.forall_mem_cons.2 ⟨hmode, h.inMode⟩
  nonempty := List.forall_mem_cons.2 ⟨hne, h.nonempty⟩
  apart := List.isChain_cons.2 ⟨hapart, h.apart⟩

theorem consPath (h : Partitions d ps segments) {mode : Mode} {step : PathStep}
    (hstep : step.mode d = some mode) :
    Partitions d (.inl step :: ps) (consPath mode step segments) := by
  have hsingle (hapart : ∀ first ∈ segments.head?, (path mode [step]).Apart first) :
      Partitions d (.inl step :: ps) (path mode [step] :: segments) :=
    h.cons (path mode [step]) (List.forall_mem_singleton.2 hstep) (by simp [parts]) hapart
  unfold Segment.consPath
  split
  · rename_i m steps rest
    split
    · rename_i hm
      subst hm
      obtain rfl := h.parts_eq
      have hsteps := (List.forall_mem_cons.1 h.inMode).1
      have hnext := (List.isChain_cons.1 h.apart).1
      exact h.tail.cons (path m (step :: steps)) (List.forall_mem_cons.2 ⟨hstep, hsteps⟩)
        (by simp [parts]) fun first hfirst => (hnext first hfirst).steps _
    · rename_i hm
      refine hsingle fun first hfirst => ?_
      cases hfirst
      exact Ne.symm hm
  · rename_i hother
    refine hsingle fun first hfirst => ?_
    cases first with
    | path m steps =>
      obtain ⟨rest, hpath⟩ := List.head?_eq_some_iff.1 hfirst
      exact (hother m steps rest hpath).elim
    | _ => trivial

end Partitions

theorem partitions_ofParts (d : Direction) (ps : List (Part β)) :
    Partitions d ps (ofParts d ps) := by
  induction ps with
  | nil => exact .nil d
  | cons p rest ih =>
    rcases p with (⟨m, inverted⟩ | blocks) | b
    · exact ih.consPath rfl
    · exact ih.cons (barrier blocks) trivial (by simp [parts]) fun _ _ => trivial
    · exact ih.cons (other b) trivial (by simp [parts]) fun _ _ => trivial

/-! ### There is only one -/

theorem ofParts_inMode {mode : Mode} {steps : List PathStep} (hne : steps ≠ [])
    (h : ∀ step ∈ steps, step.mode d = some mode) :
    (ofParts d (steps.map .inl) : List (Segment β)) = [path mode steps] := by
  induction steps with
  | nil => exact absurd rfl hne
  | cons step rest ih =>
    obtain ⟨hstep, hrest⟩ := List.forall_mem_cons.1 h
    cases step with
    | barrier blocks => cases hstep
    | move m inverted =>
      have hcons : (ofParts d ((PathStep.move m inverted :: rest).map .inl) : List (Segment β)) =
          consPath mode (.move m inverted) (ofParts d (rest.map .inl)) :=
        congrArg (consPath · _ _) (Option.some.inj hstep)
      rw [hcons]
      cases rest with
      | nil => rfl
      | cons next more =>
        rw [ih (by simp) hrest]
        exact if_pos rfl

/-- The parts of a segment make this segment. -/
theorem ofParts_parts {seg : Segment β} (hmode : seg.InMode d) (hne : seg.parts ≠ []) :
    ofParts d seg.parts = [seg] := by
  cases seg with
  | path mode steps => exact ofParts_inMode (fun hnil => hne (congrArg _ hnil)) hmode
  | _ => rfl

theorem Partitions.eq_ofParts (h : Partitions d ps segments) : segments = ofParts d ps := by
  induction segments generalizing ps with
  | nil =>
    obtain rfl := h.parts_eq
    rfl
  | cons seg rest ih =>
    obtain rfl := h.parts_eq
    obtain ⟨hmode, hmodes⟩ := List.forall_mem_cons.1 h.inMode
    obtain ⟨hne, hnonempty⟩ := List.forall_mem_cons.1 h.nonempty
    have hseam : ∀ p ∈ seg.parts.getLast?, ∀ q ∈ (rest.flatMap parts).head?, ¬Fuses d p q := by
      intro p hp q hq
      cases rest with
      | nil => cases hq
      | cons next more =>
        obtain ⟨first, others, hparts⟩ :=
          List.exists_cons_of_ne_nil (hnonempty next List.mem_cons_self)
        rw [List.flatMap_cons, hparts] at hq
        have hq : q ∈ next.parts := by
          cases hq
          rw [hparts]
          exact List.mem_cons_self
        exact (List.isChain_cons_cons.1 h.apart).1.not_fuses hmode (hmodes next List.mem_cons_self)
          (List.mem_of_getLast? hp) hq
    rw [List.flatMap_cons, ofParts_append hseam, ofParts_parts hmode hne, ← ih h.tail]
    rfl

theorem partitions_iff : Partitions d ps segments ↔ segments = ofParts d ps :=
  ⟨Partitions.eq_ofParts, fun h => h ▸ partitions_ofParts d ps⟩

/-! ### From left to right -/

/-- The segments with one more part behind them. A path step goes into the last segment if that has
its mode. -/
def extend (d : Direction) (segments : List (Segment β)) (p : Part β) : List (Segment β) :=
  match p, segments.getLast? with
  | .inl (.move m inverted), some (path mode steps) =>
    if mode = modeOf d inverted then
      segments.dropLast ++ [path mode (steps ++ [.move m inverted])]
    else segments ++ [alone d p]
  | _, _ => segments ++ [alone d p]

namespace Partitions

theorem front {front : List (Segment β)} {seg : Segment β} (h : Partitions d ps (front ++ [seg])) :
    Partitions d (front.flatMap parts) front where
  parts_eq := rfl
  inMode := (List.forall_mem_append.1 h.inMode).1
  nonempty := (List.forall_mem_append.1 h.nonempty).1
  apart := (List.isChain_append.1 h.apart).1

/-- One more segment at the end, apart from the last one. -/
theorem concat (h : Partitions d ps segments) (seg : Segment β) (hmode : seg.InMode d)
    (hne : seg.parts ≠ []) (hapart : ∀ last ∈ segments.getLast?, last.Apart seg) :
    Partitions d (ps ++ seg.parts) (segments ++ [seg]) where
  parts_eq := by simp [List.flatMap_append, h.parts_eq]
  inMode := List.forall_mem_append.2 ⟨h.inMode, List.forall_mem_singleton.2 hmode⟩
  nonempty := List.forall_mem_append.2 ⟨h.nonempty, List.forall_mem_singleton.2 hne⟩
  apart := List.isChain_append.2 ⟨h.apart, .singleton seg, fun last hlast first hfirst => by
    cases hfirst
    exact hapart last hlast⟩

theorem extend (h : Partitions d ps segments) (p : Part β) :
    Partitions d (ps ++ [p]) (extend d segments p) := by
  have hsingle (hapart : ∀ last ∈ segments.getLast?, last.Apart (alone d p)) :
      Partitions d (ps ++ [p]) (segments ++ [alone d p]) := by
    simpa using h.concat _ (inMode_alone d p) (by simp) hapart
  unfold Segment.extend
  split
  · rename_i m inverted mode steps hlast
    split
    · rename_i hm
      obtain ⟨front, rfl⟩ := List.getLast?_eq_some_iff.1 hlast
      obtain rfl := h.parts_eq
      have hsteps := List.forall_mem_singleton.1 (List.forall_mem_append.1 h.inMode).2
      have hbefore := (List.isChain_append.1 h.apart).2.2
      have hjoined := h.front.concat (path mode (steps ++ [.move m inverted]))
        (List.forall_mem_append.2 ⟨hsteps, List.forall_mem_singleton.2 (hm ▸ rfl)⟩)
        (by simp [parts])
        fun before hmem => ((hbefore before hmem _ rfl).symm.steps _).symm
      simpa [parts] using hjoined
    · rename_i hm
      refine hsingle fun last hmem => ?_
      cases hlast.symm.trans hmem
      exact hm
  · rename_i p _ _ hother
    refine hsingle fun last hmem => ?_
    cases last with
    | path mode steps =>
      rcases p with (⟨m, inverted⟩ | blocks) | b
      · exact (hother m inverted mode steps rfl hmem).elim
      · trivial
      · trivial
    | _ => trivial

end Partitions

/-- One pass over the steps finds the segments. -/
theorem foldl_extend (d : Direction) (ps : List (Part β)) :
    ps.foldl (extend d) [] = ofParts d ps := by
  have hpass (front back : List (Part β)) (segments : List (Segment β))
      (h : Partitions d front segments) :
      Partitions d (front ++ back) (back.foldl (extend d) segments) := by
    induction back generalizing front segments with
    | nil => simpa using h
    | cons p rest ih => simpa using ih (front ++ [p]) _ (h.extend p)
  exact (hpass [] ps [] (.nil d)).eq_ofParts

/-! ### The opposite direction -/

/-- The segment in the other mode. -/
def exchange : Segment β → Segment β
  | path mode steps => path mode.opposite steps
  | seg => seg

@[simp] theorem parts_exchange (seg : Segment β) : seg.exchange.parts = seg.parts := by
  cases seg <;> rfl

theorem mode_opposite (d : Direction) (step : PathStep) :
    step.mode d.opposite = (step.mode d).map Mode.opposite := by
  cases step with
  | move m inverted => cases d <;> cases inverted <;> rfl
  | barrier blocks => rfl

theorem InMode.exchange {seg : Segment β} (h : seg.InMode d) : seg.exchange.InMode d.opposite := by
  cases seg with
  | path mode steps =>
    intro step hstep
    rw [mode_opposite, h step hstep]
    rfl
  | _ => trivial

theorem Apart.exchange {a b : Segment β} (h : a.Apart b) : a.exchange.Apart b.exchange := by
  cases a with
  | path m steps =>
    cases b with
    | path m' steps' =>
      have hne : m ≠ m' := h
      change m.opposite ≠ m'.opposite
      cases m <;> cases m' <;> simp_all [Mode.opposite]
    | _ => trivial
  | _ => cases b <;> trivial

theorem Partitions.exchange (h : Partitions d ps segments) :
    Partitions d.opposite ps (segments.map Segment.exchange) where
  parts_eq := by simp [List.flatMap_map, h.parts_eq]
  inMode := List.forall_mem_map.2 fun seg hseg => (h.inMode seg hseg).exchange
  nonempty := List.forall_mem_map.2 fun seg hseg => by simpa using h.nonempty seg hseg
  apart := (List.isChain_map _).2 (h.apart.imp fun _ _ => Apart.exchange)

theorem ofParts_opposite (d : Direction) (ps : List (Part β)) :
    ofParts d.opposite ps = (ofParts d ps).map exchange :=
  (partitions_ofParts d ps).exchange.eq_ofParts.symm

/-- The segments of a run have the steps of the pipeline in order. No segment is empty, those of
path steps have only steps in their own mode, no two of them with one mode are neighbours, and what
has no mode is a segment of its own; there is no other grouping like this. In the opposite direction
the segments have the same steps, and path segments the other mode. -/
theorem ofParts_unique (d : Direction) (ps : List (Part β)) :
    (ofParts d ps).flatMap parts = ps ∧
    (∀ seg ∈ ofParts d ps, seg.parts ≠ []) ∧
    (∀ mode steps, path mode steps ∈ ofParts d ps → ∀ step ∈ steps, step.mode d = some mode) ∧
    (∀ seg ∈ ofParts d ps, ∀ p ∈ seg.parts, modeAt d p = none → seg.parts = [p]) ∧
    (ofParts d ps).IsChain Apart ∧
    (∀ segments, Partitions d ps segments → segments = ofParts d ps) ∧
    ofParts d.opposite ps = (ofParts d ps).map exchange ∧
    (ofParts d.opposite ps).map parts = (ofParts d ps).map parts := by
  have h := partitions_ofParts d ps
  have hopposite := ofParts_opposite d ps
  refine ⟨h.parts_eq, h.nonempty, fun mode steps => h.inMode (path mode steps),
    fun seg hseg p hp => parts_eq_singleton (h.inMode seg hseg) hp, h.apart,
    fun _ => Partitions.eq_ofParts, hopposite, ?_⟩
  rw [hopposite, List.map_map]
  exact List.map_congr_left fun seg _ => parts_exchange seg

/-- Plain and inverted steps, a barrier between steps of one mode, and two steps of another kind. -/
theorem ofParts_unique_mixed :
    let a : PathStep := .move (.field "a") false
    let b : PathStep := .move .each false
    let c : PathStep := .move (.field "c") true
    let ps : List (Part Unit) :=
      [.inl a, .inl b, .inl c, .inl (.barrier .reverse), .inl c, .inr (), .inr (), .inl a]
    let segments : List (Segment Unit) :=
      [path .extract [a, b], path .construct [c], barrier .reverse, path .construct [c], other (),
        other (), path .extract [a]]
    Partitions .forward ps segments ∧ segments = ofParts .forward ps ∧
      b.mode .forward = some .extract ∧
      (barrier .reverse : Segment Unit).parts = [.inl (.barrier .reverse)] ∧
      ofParts .reverse ps = segments.map exchange := by
  intro a b c ps segments
  have hsegments : segments = ofParts .forward ps := rfl
  have hpartitions : Partitions .forward ps segments := hsegments ▸ partitions_ofParts .forward ps
  obtain ⟨-, -, hmodes, halone, -, hunique, hopposite, -⟩ := ofParts_unique .forward ps
  rw [← hsegments] at hmodes halone hopposite
  exact ⟨hpartitions, hunique segments hpartitions,
    hmodes .extract [a, b] (by simp [segments]) b (by simp),
    halone (barrier .reverse) (by simp [segments]) _ List.mem_cons_self rfl, hopposite⟩

end Segment

end Reshape
