import Mathlib.Data.List.Induction
import Reshape.Proofs.Pipeline.Seams

/-!
# Barriers in a path

A barrier lets a run pass in the direction that it does not block, but it parts the steps beside it,
as a barrier is a segment of its own. That changes nothing where the two steps take no notice of
each other (`run_insert_barrier`). They do inside a block of inverted steps, which is taken against
the order of the run, and where a mark and a key work together (`PathStep.linked`).
-/

namespace Reshape

variable {ω : Type}

/-- Does a move take notice of the move in front of it? In a reading, a mark asks whether a key was
missing; in a building, a name behind a mark is bound in every item. -/
def Move.heeds (mode : Mode) : Move → Move → Bool
  | field _, each | index _, each => mode = .extract
  | each, field _ => mode = .construct
  | _, _ => false

/-- Do two neighbouring steps depend on being in one segment of a run with effective direction
`d`? -/
def PathStep.linked (d : Direction) : PathStep → PathStep → Bool
  | move _ true, move _ true => true
  | move a false, move b false => Move.heeds (Segment.modeOf d false) a b
  | _, _ => false

/-! ### Readings and buildings in two parts -/

namespace Path

variable {ns : Nonvalues} {p q : List Move}

theorem step_missing {r : Reading} {m : Move} (h : m.heeds .extract .each = false) :
    (r.step ns m).missing = false := by
  cases m with
  | parent =>
    simp only [Reading.step]
    split <;> rfl
  | field | index => cases h
  | _ => rfl

theorem step_forget (r : Reading) {m : Move} (h : m ≠ .each) :
    r.step ns m = Reading.step ns { value := r.value, context := r.context } m := by
  cases m with
  | each => exact absurd rfl h
  | _ => rfl

/-- Reading along two paths in a row. -/
theorem extract_append
    (h : ∀ a ∈ p.getLast?, ∀ b ∈ q.head?, Move.heeds .extract a b = false) (v : Value)
    (c : Context) :
    extract ns (p ++ q) v c = extract ns q (extract ns p v c).1 (extract ns p v c).2 := by
  simp only [extract, List.foldl_append]
  generalize hr : p.foldl (Reading.step ns) { value := v, context := c } = r
  cases q with
  | nil => rfl
  | cons m rest =>
    have hforget : r.step ns m = Reading.step ns { value := r.value, context := r.context } m := by
      by_cases hm : m = .each
      · subst hm
        have hmissing : r.missing = false := by
          rcases List.eq_nil_or_concat p with rfl | ⟨front, last, rfl⟩
          · rw [← hr]
            rfl
          · rw [← hr, List.concat_eq_append, List.foldl_append]
            exact step_missing (h last (by simp) .each rfl)
        cases r
        simp_all
      · exact step_forget r hm
    simp only [List.foldl_cons, hforget]

theorem constructMove_of_heeds {m : Move} (h : Move.heeds .construct .each m = false)
    (afterEach : Bool) (c : Context) (target : Option Value) (v : Value) :
    constructMove ns c afterEach target v m = constructMove ns c false target v m := by
  cases m with
  | field name => cases h
  | _ => rfl

/-- Building below two paths in a row, where the second does not start with a name behind a mark. -/
theorem construct_append_of_heeds
    (h : ∀ a ∈ p.getLast?, ∀ b ∈ q.head?, Move.heeds .construct a b = false) (c : Context)
    (target : Option Value) (v : Value) :
    construct ns c target v (p ++ q) =
      construct ns c target (construct ns c (target.bind (navigate · p)) v q) p := by
  by_cases hp : p.getLast? = some .each
  · cases q with
    | nil => simp
    | cons m rest =>
      have hm (afterEach : Bool) (t : Option Value) (u : Value) :
          constructMove ns c afterEach t u m = constructMove ns c false t u m :=
        constructMove_of_heeds (h .each hp m rfl) afterEach c t u
      have hbelow : constructBelow ns c target v (p ++ [m]) rest =
          constructBelow ns c (target.bind (navigate · p)) v [m] rest :=
        constructBelow_append ns c v (fun e => by cases e) target rest
      have hroot (t : Option Value) : t.bind (navigate · []) = t := by cases t <;> rfl
      simp only [construct, constructBelow_concat, List.nil_append, constructBelow, hbelow, hm,
        hroot, List.getLast?_nil]
  · exact construct_append ns c v hp target q

end Path

/-! ### Segments in two parts -/

namespace Interchangeable

variable {d : Direction} {p q : List Move}

/-- Two readings in a row are as good as one. -/
theorem extract_append (inverted : Bool)
    (h : ∀ a ∈ p.getLast?, ∀ b ∈ q.head?, Move.heeds .extract a b = false) :
    Interchangeable d
      ([.path .extract (p.map (.move · inverted)), .path .extract (q.map (.move · inverted))] :
        List (Segment (Action ω)))
      [.path .extract ((p ++ q).map (.move · inverted))] := by
  refine ⟨fun _ => rfl, fun s _ v c => ?_⟩
  have hread : Path.extract s.nonvalues (p ++ q) v c =
      Path.extract s.nonvalues q (Path.extract s.nonvalues p v c).1
        (Path.extract s.nonvalues p v c).2 :=
    Path.extract_append h v c
  simp only [Reshape.flow, Segment.run, Segment.filterMap_move?, Task.done_bind, hread]

/-- Two buildings in a row, the inner one first, are as good as one. -/
theorem construct_append (inverted : Bool)
    (h : ∀ a ∈ p.getLast?, ∀ b ∈ q.head?, Move.heeds .construct a b = false) :
    Interchangeable d
      ([.path .construct (q.map (.move · inverted)), .path .construct (p.map (.move · inverted))] :
        List (Segment (Action ω)))
      [.path .construct ((p ++ q).map (.move · inverted))] := by
  refine ⟨fun t => ?_, fun s _ v c => ?_⟩
  · simp only [Segment.targetBefore, Segment.handOn, Segment.filterMap_move?]
    cases t <;> simp [Path.navigate_append]
  · have hbuilt : Path.construct s.nonvalues c s.target v (p ++ q) =
        Path.construct s.nonvalues c s.target
          (Path.construct s.nonvalues c (s.target.bind (Path.navigate · p)) v q) p :=
      Path.construct_append_of_heeds h c s.target v
    simp only [Reshape.flow, Segment.run, Segment.filterMap_move?, Task.done_bind, hbuilt,
      Segment.targetBefore, Segment.handOn]

end Interchangeable

namespace Segment

variable {β : Type} {d : Direction}

/-- No step of a block with the given inversion flag joins the last step of the path. -/
def EndsOutside (inverted : Bool) (p : List PathStep) : Prop :=
  ∀ a ∈ p.getLast?, ∀ m, a.joins (.move m inverted) = false

/-- No step of a block with the given inversion flag joins the first step of the path. -/
def StartsOutside (inverted : Bool) (p : List PathStep) : Prop :=
  ∀ b ∈ p.head?, ∀ m, (PathStep.move m inverted).joins b = false

theorem exists_closing_block (inverted : Bool) (p : List PathStep) :
    ∃ (front : List PathStep) (moves : List Move),
      p = front ++ moves.map (.move · inverted) ∧ EndsOutside inverted front := by
  induction p using List.reverseRecOn with
  | nil => exact ⟨[], [], rfl, by simp [EndsOutside]⟩
  | append_singleton rest step ih =>
    by_cases hstep : ∃ m, step = .move m inverted
    · obtain ⟨m, rfl⟩ := hstep
      obtain ⟨front, moves, rfl, hfront⟩ := ih
      exact ⟨front, moves ++ [m], by simp, hfront⟩
    · refine ⟨rest ++ [step], [], by simp, fun a ha m => ?_⟩
      obtain rfl : step = a := by simpa using ha
      cases step with
      | barrier blocks => rfl
      | move m' i => simpa [PathStep.joins] using fun e : i = inverted => hstep ⟨m', by rw [e]⟩

theorem exists_opening_block (inverted : Bool) (p : List PathStep) :
    ∃ (moves : List Move) (back : List PathStep),
      p = moves.map (.move · inverted) ++ back ∧ StartsOutside inverted back := by
  induction p with
  | nil => exact ⟨[], [], rfl, by simp [StartsOutside]⟩
  | cons step rest ih =>
    by_cases hstep : ∃ m, step = .move m inverted
    · obtain ⟨m, rfl⟩ := hstep
      obtain ⟨moves, back, rfl, hback⟩ := ih
      exact ⟨m :: moves, back, rfl, hback⟩
    · refine ⟨[], step :: rest, rfl, fun b hb m => ?_⟩
      obtain rfl : step = b := by simpa using hb
      cases step with
      | barrier blocks => rfl
      | move m' i => simpa [PathStep.joins] using fun e : inverted = i => hstep ⟨m', by rw [e]⟩

/-- A block is a segment between the segments of what stands before and after it. -/
theorem ofSteps_between {inverted : Bool} {front back : List PathStep} {moves : List Move}
    (hfront : EndsOutside inverted front) (h : moves ≠ []) (hback : StartsOutside inverted back) :
    (ofSteps d (front ++ (moves.map (.move · inverted) ++ back)) : List (Segment β)) =
      ofSteps d front ++
        path (modeOf d inverted) (moves.map (.move · inverted)) :: ofSteps d back := by
  obtain ⟨m, more, rfl⟩ := List.exists_cons_of_ne_nil h
  have hseam : ∀ a ∈ ((m :: more).map (PathStep.move · inverted)).getLast?, ∀ b ∈ back.head?,
      a.joins b = false := by
    intro a ha b hb
    simp only [List.getLast?_map, Option.mem_def, Option.map_eq_some_iff] at ha
    obtain ⟨n, -, rfl⟩ := ha
    exact hback b hb n
  have hseam' : ∀ a ∈ front.getLast?,
      ∀ b ∈ ((m :: more).map (PathStep.move · inverted) ++ back).head?, a.joins b = false := by
    intro a ha b hb
    obtain rfl : .move m inverted = b := by simpa using hb
    exact hfront a ha m
  rw [ofSteps_append hseam', ofSteps_append hseam, ofSteps_moves d inverted h]
  rfl

/-- Around a seam inside a block, the block is one segment, and so is each of its parts alone. -/
theorem exists_seam {front back : List PathStep} {m m' : Move} {inverted : Bool}
    (hfront : front.getLast? = some (.move m inverted))
    (hback : back.head? = some (.move m' inverted)) :
    ∃ (before after : List (Segment β)) (p q : List Move),
      p.getLast? = some m ∧ q.head? = some m' ∧
      ofSteps d front = before ++ [path (modeOf d inverted) (p.map (.move · inverted))] ∧
      ofSteps d back = path (modeOf d inverted) (q.map (.move · inverted)) :: after ∧
      ofSteps d (front ++ back) =
        before ++ path (modeOf d inverted) ((p ++ q).map (.move · inverted)) :: after := by
  obtain ⟨front, p, rfl, hends⟩ := exists_closing_block inverted front
  obtain ⟨q, back, rfl, hstarts⟩ := exists_opening_block inverted back
  have hp : p ≠ [] := by
    rintro rfl
    have hjoins := hends (.move m inverted) (by simpa using hfront) m
    simp [PathStep.joins] at hjoins
  have hq : q ≠ [] := by
    rintro rfl
    have hjoins := hstarts (.move m' inverted) (by simpa using hback) m'
    simp [PathStep.joins] at hjoins
  have hnone : EndsOutside inverted [] := by simp [EndsOutside]
  have hnone' : StartsOutside inverted [] := by simp [StartsOutside]
  refine ⟨ofSteps d front, ofSteps d back, p, q, ?_, ?_, ?_, ?_, ?_⟩
  · simpa [List.getLast?_append, hp] using hfront
  · simpa [hq] using hback
  · have hlast := ofSteps_between (β := β) (d := d) hends hp hnone'
    rwa [List.append_nil] at hlast
  · exact ofSteps_between hnone hq hstarts
  · have hall := ofSteps_between (β := β) (d := d) hends (List.append_ne_nil_of_left_ne_nil hp q)
      hstarts
    rwa [List.map_append, List.append_assoc, ← List.append_assoc front, ← List.map_append] at hall

end Segment

namespace Interchangeable

variable {d : Direction} {front back : List PathStep}

/-- Where neighbouring steps are not linked, the segments on the two sides can be taken apart. -/
theorem apart (h : ∀ a ∈ front.getLast?, ∀ b ∈ back.head?, PathStep.linked d a b = false) :
    Interchangeable d
      (Segment.inOrder d (Segment.ofSteps d front ++ Segment.ofSteps d back) :
        List (Segment (Action ω)))
      (Segment.inOrder d (Segment.ofSteps d (front ++ back))) := by
  by_cases hjoins : ∀ a ∈ front.getLast?, ∀ b ∈ back.head?, a.joins b = false
  · rw [Segment.ofSteps_append hjoins]
    exact .refl ..
  · obtain ⟨m, m', hfront, hback⟩ : ∃ m m', front.getLast? = some (.move m false) ∧
        back.head? = some (.move m' false) := by
      push Not at hjoins
      obtain ⟨a, ha, b, hb, hab⟩ := hjoins
      have hlink := h a ha b hb
      rcases a with ⟨m, _ | _⟩ | _ <;> rcases b with ⟨m', _ | _⟩ | _ <;>
        simp [PathStep.joins, PathStep.linked] at hab hlink
      exact ⟨m, m', ha, hb⟩
    obtain ⟨before, after, p, q, hp, hq, hofFront, hofBack, hof⟩ :=
      Segment.exists_seam (β := Action ω) (d := d) hfront hback
    have hheeds : ∀ a ∈ p.getLast?, ∀ b ∈ q.head?,
        Move.heeds (Segment.modeOf d false) a b = false := by
      intro a ha b hb
      obtain rfl : m = a := Option.some.inj (hp.symm.trans ha)
      obtain rfl : m' = b := Option.some.inj (hq.symm.trans hb)
      exact h _ hfront _ hback
    rw [hofFront, hofBack, hof]
    cases d with
    | forward =>
      have hmode : Segment.modeOf .forward false = .extract := rfl
      have hparts := (extract_append (ω := ω) (d := .forward) false hheeds).within before after
      simpa [hmode] using hparts
    | reverse =>
      have hmode : Segment.modeOf .reverse false = .construct := rfl
      have hparts := (construct_append (ω := ω) (d := .reverse) false hheeds).within after.reverse
        before.reverse
      simpa [hmode] using hparts

/-- A barrier that does not block leaves the segments beside it apart. -/
theorem insert_barrier (d : Direction) (front back : List PathStep) :
    Interchangeable d
      (Segment.inOrder d (Segment.ofSteps d (front ++ .barrier d.opposite :: back)) :
        List (Segment (Action ω)))
      (Segment.inOrder d (Segment.ofSteps d front ++ Segment.ofSteps d back)) := by
  have hseam : ∀ a ∈ front.getLast?, ∀ b ∈ (PathStep.barrier d.opposite :: back).head?,
      a.joins b = false := by
    intro a _ b hb
    obtain rfl : .barrier d.opposite = b := by simpa using hb
    cases a <;> rfl
  have hcons : (Segment.ofSteps d (.barrier d.opposite :: back) : List (Segment (Action ω))) =
      .barrier d.opposite :: Segment.ofSteps d back := rfl
  rw [Segment.ofSteps_append hseam, hcons]
  cases d with
  | forward =>
    have hpass := (barrier (ω := ω) .forward).within (Segment.ofSteps .forward front)
      (Segment.ofSteps .forward back)
    simpa using hpass
  | reverse =>
    have hpass := (barrier (ω := ω) .reverse).within (Segment.ofSteps .reverse back).reverse
      (Segment.ofSteps .reverse front).reverse
    simpa using hpass

end Interchangeable

/-! ### Runs -/

/-- Segments that let everything flow alike make equal runs along bare paths. -/
theorem start_ofPath_congr {p q : List PathStep} {s : State}
    (h : Interchangeable (ω := ω) s.effective
      (Segment.inOrder s.effective (Segment.ofSteps s.effective p))
      (Segment.inOrder s.effective (Segment.ofSteps s.effective q))) (v : Value) :
    Pipeline.start (Step.ofPath p : Pipeline ω) v s = Pipeline.start (Step.ofPath q) v s := by
  have hruns : Pipeline.runSteps (Step.ofPath p : Pipeline ω) v s =
      Pipeline.runSteps (Step.ofPath q) v s := by
    rw [runSteps_ofPath, runSteps_ofPath, h.flow s rfl]
  simp only [Pipeline.start, hasAlways_ofPath, hruns]

/-- A barrier that blocks the opposite direction leaves a run along a path unchanged where it
stands between steps that are not linked. -/
theorem run_insert_barrier {d : Direction} {front back : List PathStep}
    (h : ∀ a ∈ front.getLast?, ∀ b ∈ back.head?, PathStep.linked d a b = false) (v : Value)
    {o : Options} (ho : o.direction.flippedBy o.flip = d) (w : ω) :
    Pipeline.run (Step.ofPath (front ++ .barrier d.opposite :: back)) v o w =
        Pipeline.run (Step.ofPath (front ++ back)) v o w ∧
      Pipeline.runAsync (Step.ofPath (front ++ .barrier d.opposite :: back)) v o w =
        Pipeline.runAsync (Step.ofPath (front ++ back)) v o w := by
  subst ho
  have hsegments := (Interchangeable.insert_barrier (ω := ω) _ front back).trans (.apart h)
  have hstart := start_ofPath_congr (s := .ofOptions o) hsegments v
  exact ⟨congrArg (Task.runSync · w) hstart, congrArg (Task.complete · w) hstart⟩

theorem run_insert_barrier_target :
    Pipeline.run (Step.ofPath ([.move (.field "user") false, .move .each false] ++
          .barrier .forward :: [.move (.index 1) false])) (.str "Ada")
        { direction := .reverse, target := some (.map [("id", .str "7")]) } () =
      (.ok (.map [("id", .str "7"), ("user", .seq [.absent, .str "Ada"])]), ()) := by
  have hseam : ∀ a ∈ [PathStep.move (.field "user") false, .move .each false].getLast?,
      ∀ b ∈ [PathStep.move (.index 1) false].head?, PathStep.linked .reverse a b = false := by
    simp [PathStep.linked, Move.heeds]
  exact (run_insert_barrier hseam _ rfl ()).1.trans rfl

/-- Between linked steps a barrier that does not block is felt: it takes a mark from the missing key
in front of it and a name from the mark in front of it, and it turns the order of inverted steps
round. -/
theorem run_insert_barrier_linked :
    Pipeline.run (Step.ofPath [.move (.field "a") false, .barrier .reverse, .move .each false])
          (.map []) {} () ≠
        Pipeline.run (Step.ofPath [.move (.field "a") false, .move .each false]) (.map []) {} () ∧
      Pipeline.run (Step.ofPath [.move .each false, .barrier .forward, .move (.field "x") false])
          (.seq [.str "a", .str "b"]) { direction := .reverse } () ≠
        Pipeline.run (Step.ofPath [.move .each false, .move (.field "x") false])
          (.seq [.str "a", .str "b"]) { direction := .reverse } () ∧
      Pipeline.run
          (Step.ofPath [.move (.field "a") true, .barrier .reverse, .move (.field "b") true])
          (.str "x") {} () ≠
        Pipeline.run (Step.ofPath [.move (.field "a") true, .move (.field "b") true])
          (.str "x") {} () ∧
      Pipeline.run
          (Step.ofPath [.move (.field "a") true, .barrier .forward, .move (.field "b") true])
          (.map [("a", .map [("b", .str "x")])]) { direction := .reverse } () ≠
        Pipeline.run (Step.ofPath [.move (.field "a") true, .move (.field "b") true])
          (.map [("a", .map [("b", .str "x")])]) { direction := .reverse } () := by
  refine ⟨?_, ?_, ?_, ?_⟩
  · change ((.ok .absent, ()) : Except Fault Value × Unit) ≠ (.ok (.seq []), ())
    simp
  · change ((.ok (.seq [.map [("x", .seq [.str "a", .str "b"])]]), ()) :
        Except Fault Value × Unit) ≠
      (.ok (.seq [.map [("x", .str "a")], .map [("x", .str "b")]]), ())
    simp
  · change ((.ok (.map [("b", .map [("a", .str "x")])]), ()) : Except Fault Value × Unit) ≠
      (.ok (.map [("a", .map [("b", .str "x")])]), ())
    simp
  · change ((.ok .absent, ()) : Except Fault Value × Unit) ≠ (.ok (.str "x"), ())
    simp

end Reshape
