import Mathlib.Data.List.TakeWhile
import Reshape.Proofs.Path.Barrier
import Reshape.Proofs.Pipeline.Segmentation
import Reshape.Proofs.Pipeline.Targets

/-!
# Descents

A key that is read leaves the value it was read from on the context, and a mark leaves nothing
there. So as many parent moves as a path has keys lead back to the value in front of its first key
(`extract_climb_back`), and a root move does so at once where the context was empty
(`extract_root_back`). Moves in front of a pipeline are read before the rest of it is run
(`runSteps_read_append`), so of a path and the way back a forward run shows nothing but the marks in
front of the first key (`run_back`).
-/

namespace Reshape

variable {ω : Type}

/-! ### Moves in front of a pipeline -/

theorem runSegments_extract (s : State) (steps : List PathStep)
    (rest : List (Segment (Action ω))) (v : Value) (c : Context) :
    runSegments s (.path .extract steps :: rest) v c =
      runSegments s rest (Path.extract s.nonvalues (steps.filterMap PathStep.move?) v c).1
        (Path.extract s.nonvalues (steps.filterMap PathStep.move?) v c).2 := rfl

/-- A block that is read in front of segments can be read before them. -/
theorem runSegments_consBlock (s : State) {p : List Move} {segments : List (Segment (Action ω))}
    (h : ∀ steps rest, segments = .path .extract steps :: rest → ∀ a ∈ p.getLast?,
      ∀ b ∈ (steps.filterMap PathStep.move?).head?, Move.heeds .extract a b = false)
    (v : Value) (c : Context) :
    runSegments s (Segment.consBlock .extract (p.map (.move · false)) segments) v c =
      runSegments s segments (Path.extract s.nonvalues p v c).1
        (Path.extract s.nonvalues p v c).2 := by
  rcases segments with _ | ⟨⟨mode, steps⟩ | blocks | act, rest⟩
  · simp only [Segment.consBlock, runSegments_extract, Segment.filterMap_move?]
  · cases mode with
    | extract =>
      simp only [Segment.consBlock, if_true, runSegments_extract, List.filterMap_append,
        Segment.filterMap_move?, Path.extract_append (h steps rest rfl)]
    | construct =>
      simp only [Segment.consBlock, reduceCtorEq, if_false]
      rw [runSegments_extract, Segment.filterMap_move?]
  · simp only [Segment.consBlock]
    rw [runSegments_extract, Segment.filterMap_move?]
  · simp only [Segment.consBlock]
    rw [runSegments_extract, Segment.filterMap_move?]

/-- The first move of a first segment that is read is the first step of the pipeline. -/
theorem Segment.head?_of_extract {q : Pipeline ω} {steps : List PathStep}
    {rest : List (Segment (Action ω))}
    (h : ofParts .forward (stepParts q) = .path .extract steps :: rest) {b : Move}
    (hb : b ∈ (steps.filterMap PathStep.move?).head?) :
    q.head? = some (.path (.move b false)) := by
  have hmode := inMode_ofParts .forward (stepParts q)
  have hparts := parts_ofParts .forward (stepParts q)
  rw [h] at hmode hparts
  rcases steps with _ | ⟨⟨m, inverted⟩ | blocks, more⟩
  · cases hb
  · obtain rfl : m = b := by simpa [PathStep.move?] using hb
    have hplain : modeOf .forward inverted = .extract :=
      Option.some.inj (hmode _ List.mem_cons_self _ List.mem_cons_self)
    obtain rfl : inverted = false := modeOf_inj.1 (hplain.trans (rfl : _ = modeOf .forward false))
    cases q with
    | nil => simp [parts, stepParts] at hparts
    | cons step q =>
      have hstep : step.part = .inl (.move m false) := by
        simpa [parts, stepParts] using (List.cons.inj hparts).1.symm
      cases step with
      | path p => exact congrArg (fun p => some (Step.path p)) (Sum.inl.inj hstep)
      | shape sh => cases hstep
      | op o flags => cases hstep
  · cases hmode _ List.mem_cons_self _ List.mem_cons_self

/-- In a forward run, the moves in front of a pipeline are read first. They may share a segment with
what follows, so no mark may follow a key. -/
theorem runSteps_read_append {s : State} (hs : s.effective = .forward) {p : List Move}
    {q : Pipeline ω}
    (h : ∀ a ∈ p.getLast?, ∀ b, q.head? = some (.path (.move b false)) →
      Move.heeds .extract a b = false) (v : Value) :
    Pipeline.runSteps (Step.ofMoves false p ++ q) v s =
      q.runSteps (Path.extract s.nonvalues p v s.context).1
        (s.withContext (Path.extract s.nonvalues p v s.context).2) := by
  by_cases hp : p = []
  · subst hp
    rfl
  have hs' : (s.withContext (Path.extract s.nonvalues p v s.context).2).effective = .forward := hs
  have hmode : Segment.modeOf .forward false = .extract := rfl
  rw [runSteps_of_forward hs, runSteps_of_forward hs', stepParts_append, stepParts_ofMoves,
    Segment.ofParts_moves _ _ hp, hmode, runSegments_withContext]
  exact runSegments_consBlock s
    (fun steps rest hfirst a ha b hb => h a ha b (Segment.head?_of_extract hfirst hb)) v s.context

theorem Move.heeds_extract {a : Move} (h : a.isKey = false) (b : Move) :
    heeds .extract a b = false := by
  cases a <;> cases b <;> first | rfl | cases h

/-- Only a mark heeds the key in front of it. -/
theorem Move.heeds_extract_of_ne_each (a : Move) {b : Move} (h : b ≠ .each) :
    heeds .extract a b = false := by
  cases b with
  | each => exact absurd rfl h
  | _ => cases a <;> rfl

/-- In a forward run, moves can be exchanged for moves that read the same from the input. -/
theorem start_exchange {s : State} (hs : s.effective = .forward) {p p' : List Move}
    (hlast : ∀ a ∈ p.getLast?, a.isKey = false) (hlast' : ∀ a ∈ p'.getLast?, a.isKey = false)
    (q : Pipeline ω) {v : Value}
    (h : (s.isNonvalue v && !q.hasAlways) = false →
      Path.extract s.nonvalues p v s.context = Path.extract s.nonvalues p' v s.context) :
    Pipeline.start (Step.ofMoves false p ++ q) v s =
      Pipeline.start (Step.ofMoves false p' ++ q) v s := by
  have halways (moves : List Move) :
      Pipeline.hasAlways (Step.ofMoves false moves ++ q) = q.hasAlways := by
    have hpath : stepsHaveAlways (Step.ofMoves false moves : Pipeline ω) = false :=
      hasAlways_ofPath _
    simp only [Pipeline.hasAlways, stepsHaveAlways_append, hpath, Bool.false_or]
  have hseam {moves : List Move} (hlast : ∀ a ∈ moves.getLast?, a.isKey = false) :
      ∀ a ∈ moves.getLast?, ∀ b, q.head? = some (.path (.move b false)) →
        Move.heeds .extract a b = false := fun a ha b _ => Move.heeds_extract (hlast a ha) b
  rw [Pipeline.start, halways, Pipeline.start, halways]
  cases hgate : s.isNonvalue v && !q.hasAlways with
  | true => rfl
  | false =>
    rw [if_neg Bool.false_ne_true, if_neg Bool.false_ne_true, runSteps_read_append hs (hseam hlast),
      runSteps_read_append hs (hseam hlast'), h hgate]

/-! ### Down and back -/

namespace Path

variable {ns : Nonvalues}

/-- A path of keys and marks. -/
def Descends (p : List Move) : Prop :=
  ∀ m ∈ p, m.isKey ∨ m = .each

theorem step_key_context {m : Move} (hm : m.isKey) (r : Reading) :
    (r.step ns m).context = r.value :: r.context := by
  cases m with
  | field | index => rfl
  | _ => cases hm

/-- Every key leaves one frame. -/
theorem descent_context (ns : Nonvalues) {p : List Move} (hp : Descends p) (r : Reading) :
    ∃ frames : List Value, frames.length = p.countP Move.isKey ∧
      (p.foldl (Reading.step ns) r).context = frames ++ r.context := by
  induction p generalizing r with
  | nil => exact ⟨[], rfl, rfl⟩
  | cons m rest ih =>
    obtain ⟨hm, hrest⟩ := List.forall_mem_cons.1 hp
    obtain ⟨frames, hlength, hcontext⟩ := ih hrest (r.step ns m)
    rw [List.foldl_cons, hcontext]
    rcases hm with hm | rfl
    · refine ⟨frames ++ [r.value], ?_, ?_⟩
      · rw [List.length_append, List.countP_cons_of_pos hm, hlength, List.length_singleton]
      · rw [step_key_context hm, List.append_assoc, List.singleton_append]
    · exact ⟨frames, hlength, rfl⟩

/-- Parent moves go up frame by frame, and to absence above the lowest one. -/
theorem extract_parents (j : Nat) (v : Value) (frames : Context) :
    extract ns (List.replicate (j + 1) .parent) v frames =
      (frames[j]?.getD .absent, frames.drop (j + 1)) := by
  induction j generalizing v frames with
  | zero => cases frames <;> rfl
  | succ j ih =>
    have hstep : extract ns (List.replicate (j + 1 + 1) .parent) v frames =
        extract ns (List.replicate (j + 1) .parent) (frames[0]?.getD .absent) frames.tail := by
      cases frames <;> rfl
    rw [hstep, ih]
    cases frames <;> simp

section
variable {m : Move} {rest : List Move}

/-- As many parent moves as a descent has keys lead back to its start, whatever was read at its
end. -/
theorem extract_climb_back (hm : m.isKey) (hrest : Descends rest) (r : Reading) (v : Value) :
    extract ns (List.replicate ((m :: rest).countP Move.isKey) .parent) v
      ((m :: rest).foldl (Reading.step ns) r).context = (r.value, r.context) := by
  obtain ⟨frames, hlength, hcontext⟩ := descent_context ns hrest (r.step ns m)
  rw [step_key_context hm] at hcontext
  rw [List.foldl_cons, hcontext, List.countP_cons_of_pos hm, ← hlength, extract_parents]
  simp

/-- A root move goes back to the start of a descent from an empty context. -/
theorem extract_root_back (hm : m.isKey) (hrest : Descends rest) {r : Reading}
    (hr : r.context = []) (v : Value) :
    extract ns [.root] v ((m :: rest).foldl (Reading.step ns) r).context = (r.value, []) := by
  obtain ⟨frames, -, hcontext⟩ := descent_context ns hrest (r.step ns m)
  rw [step_key_context hm, hr] at hcontext
  rw [List.foldl_cons, hcontext]
  simp [extract, Reading.step, Context.bottom?]

end

/-- The marks in front of the first key. -/
def openingMarks (p : List Move) : List Move :=
  p.takeWhile fun m => !m.isKey

theorem isKey_openingMarks {p : List Move} {m : Move} (h : m ∈ openingMarks p) :
    m.isKey = false := by
  simpa using List.mem_takeWhile_imp h

theorem countP_openingMarks (p : List Move) : (openingMarks p).countP Move.isKey = 0 :=
  List.countP_eq_zero.2 fun _ hm => by simp [isKey_openingMarks hm]

/-- Behind its opening marks, a descent begins with a key. -/
theorem exists_first_key {p : List Move} (hp : Descends p) (hkeys : 0 < p.countP Move.isKey) :
    ∃ m rest, p = openingMarks p ++ m :: rest ∧ m.isKey ∧ Descends rest ∧
      (m :: rest).countP Move.isKey = p.countP Move.isKey := by
  have hsplit : openingMarks p ++ p.dropWhile (fun m => !m.isKey) = p :=
    List.takeWhile_append_dropWhile
  have hcount : (p.dropWhile fun m => !m.isKey).countP Move.isKey = p.countP Move.isKey := by
    conv_rhs => rw [← hsplit, List.countP_append, countP_openingMarks, Nat.zero_add]
  have hfirst := List.head?_dropWhile_not (fun m : Move => !m.isKey) p
  cases hdrop : p.dropWhile fun m => !m.isKey with
  | nil => simp [hdrop, ← hcount] at hkeys
  | cons m rest =>
    rw [hdrop] at hsplit hcount hfirst
    refine ⟨m, rest, hsplit.symm, by simpa using hfirst, fun n hn => hp n ?_, hcount⟩
    rw [← hsplit]
    exact List.mem_append_right _ (List.mem_cons_of_mem _ hn)

section
variable {p : List Move} (hp : Descends p) (v : Value) (c : Context)
include hp

theorem extract_openingMarks : (extract ns (openingMarks p) v c).2 = c := by
  have hmarks : Descends (openingMarks p) := fun m hm => hp m (List.takeWhile_subset _ hm)
  obtain ⟨frames, hlength, hcontext⟩ := descent_context ns hmarks { value := v, context := c }
  obtain rfl : frames = [] := List.eq_nil_of_length_eq_zero (hlength.trans (countP_openingMarks p))
  exact hcontext

variable (hkeys : 0 < p.countP Move.isKey)
include hkeys

/-- A path is read like the part of it from its first key on, from what the opening marks read. -/
theorem exists_start :
    ∃ m rest, ∃ r : Reading, m.isKey ∧ Descends rest ∧
      (m :: rest).countP Move.isKey = p.countP Move.isKey ∧
      extract ns (openingMarks p) v c = (r.value, r.context) ∧ r.context = c ∧
      (extract ns p v c).2 = ((m :: rest).foldl (Reading.step ns) r).context := by
  obtain ⟨m, rest, hsplit, hm, hrest, hcount⟩ := exists_first_key hp hkeys
  refine ⟨m, rest, _, hm, hrest, hcount, rfl, extract_openingMarks hp v c, ?_⟩
  rw [extract, ← List.foldl_append, ← hsplit]

/-- Down a path and back up, frame by frame: only the marks in front of the first key are felt. -/
theorem extract_down_up :
    extract ns (p ++ List.replicate (p.countP Move.isKey) .parent) v c =
      extract ns (openingMarks p) v c := by
  obtain ⟨m, rest, r, hm, hrest, hcount, hmarks, -, hread⟩ := exists_start hp v c hkeys
  have hseam : ∀ a ∈ p.getLast?, ∀ b ∈ (List.replicate (p.countP Move.isKey) Move.parent).head?,
      Move.heeds .extract a b = false := by
    intro a _ b hb
    obtain rfl := List.eq_of_mem_replicate (List.mem_of_head? hb)
    exact a.heeds_extract_of_ne_each nofun
  rw [extract_append hseam, hread, ← hcount, extract_climb_back hm hrest, hmarks]

/-- Down a path from an empty context and back to the root. -/
theorem extract_down_root :
    extract ns (p ++ [.root]) v [] = extract ns (openingMarks p) v [] := by
  obtain ⟨m, rest, r, hm, hrest, -, hmarks, hcontext, hread⟩ := exists_start hp v [] hkeys
  have hseam : ∀ a ∈ p.getLast?, ∀ b ∈ [Move.root].head?, Move.heeds .extract a b = false := by
    intro a _ b hb
    obtain rfl : .root = b := by simpa using hb
    exact a.heeds_extract_of_ne_each nofun
  rw [extract_append hseam, hread, extract_root_back hm hrest hcontext, hmarks, hcontext]

end

end Path

/-! ### Runs -/

/-- A forward run does not show which of two ways its input was reached by. -/
theorem run_exchange {p p' : List Move} (hlast : ∀ a ∈ p.getLast?, a.isKey = false)
    (hlast' : ∀ a ∈ p'.getLast?, a.isKey = false) (q : Pipeline ω) {v : Value} {o : Options}
    (ho : o.direction.flippedBy o.flip = .forward)
    (h : (o.nonvalues.contains v && !q.hasAlways) = false →
      Path.extract o.nonvalues p v [] = Path.extract o.nonvalues p' v []) (w : ω) :
    Pipeline.run (Step.ofMoves false p ++ q) v o w =
        Pipeline.run (Step.ofMoves false p' ++ q) v o w ∧
      Pipeline.runAsync (Step.ofMoves false p ++ q) v o w =
        Pipeline.runAsync (Step.ofMoves false p' ++ q) v o w := by
  have hstart := start_exchange (s := .ofOptions o) ho hlast hlast' q h
  exact ⟨congrArg (Task.runSync · w) hstart, congrArg (Task.complete · w) hstart⟩

/-- In a forward run, the keys of a path and the way back leave no trace, be it by as many parent
moves as the path has keys or by a root move. The marks in front of the first key are not taken
back; they leave no trace either where they leave the value as it is, or where the value is passed
over anyway. -/
theorem run_back {p : List Move} (hp : Path.Descends p) (hkeys : 0 < p.countP Move.isKey)
    (q : Pipeline ω) (v : Value) {o : Options} (ho : o.direction.flippedBy o.flip = .forward)
    (w : ω) :
    let up := List.replicate (p.countP Move.isKey) Move.parent
    let marks := Path.openingMarks p
    (Pipeline.run (Step.ofMoves false (p ++ up) ++ q) v o w =
        Pipeline.run (Step.ofMoves false marks ++ q) v o w ∧
      Pipeline.runAsync (Step.ofMoves false (p ++ up) ++ q) v o w =
        Pipeline.runAsync (Step.ofMoves false marks ++ q) v o w) ∧
    (Pipeline.run (Step.ofMoves false (p ++ [.root]) ++ q) v o w =
        Pipeline.run (Step.ofMoves false marks ++ q) v o w ∧
      Pipeline.runAsync (Step.ofMoves false (p ++ [.root]) ++ q) v o w =
        Pipeline.runAsync (Step.ofMoves false marks ++ q) v o w) ∧
    ((Path.extract o.nonvalues marks v []).1 = v ∨
        o.nonvalues.contains v = true ∧ q.hasAlways = false →
      Pipeline.run (Step.ofMoves false marks ++ q) v o w = q.run v o w ∧
        Pipeline.runAsync (Step.ofMoves false marks ++ q) v o w = q.runAsync v o w) := by
  intro up marks
  have hmarks : ∀ a ∈ marks.getLast?, a.isKey = false := fun a ha =>
    Path.isKey_openingMarks (List.mem_of_getLast? ha)
  have hback {back : List Move} (hne : back ≠ []) (h : ∀ m ∈ back, m.isKey = false) :
      ∀ a ∈ (p ++ back).getLast?, a.isKey = false := by
    intro a ha
    rw [List.getLast?_append, Option.or_of_isSome (List.getLast?_isSome.2 hne)] at ha
    exact h a (List.mem_of_getLast? ha)
  have hup : ∀ a ∈ (p ++ up).getLast?, a.isKey = false := by
    refine hback (by simp [up, hkeys.ne']) fun m hm => ?_
    obtain rfl := List.eq_of_mem_replicate hm
    rfl
  have hroot : ∀ a ∈ (p ++ [Move.root]).getLast?, a.isKey = false := by
    refine hback (List.cons_ne_nil _ _) fun m hm => ?_
    obtain rfl := List.mem_singleton.1 hm
    rfl
  refine ⟨run_exchange hup hmarks q ho (fun _ => Path.extract_down_up hp v [] hkeys) w,
    run_exchange hroot hmarks q ho (fun _ => Path.extract_down_root hp v hkeys) w, fun hleft => ?_⟩
  have hstays (hgate : (o.nonvalues.contains v && !q.hasAlways) = false) :
      Path.extract o.nonvalues marks v [] = Path.extract o.nonvalues [] v [] := by
    have hvalue : (Path.extract o.nonvalues marks v []).1 = v :=
      hleft.resolve_right fun h => by simp [h] at hgate
    exact Prod.ext hvalue (Path.extract_openingMarks hp v [])
  have hnone : ∀ a ∈ ([] : List Move).getLast?, a.isKey = false := nofun
  exact run_exchange hmarks hnone q ho hstays w

/-- A missing key and a missing slot on the way down; behind the way back, a mark that must not take
itself for one behind a missing key. -/
theorem run_back_missing :
    let p : List Move := [.each, .field "at", .each, .index (-3), .field "town"]
    let q : Pipeline Unit := Step.ofMoves false [.each, .index 0] ++ [.constant (.str "Ulm")] ++
      Step.ofMoves true [.field "town"]
    let o : Options := { target := some (.map [("id", .str "7")]), nonvalues := ⟨[.null]⟩ }
    Pipeline.run (Step.ofMoves false (p ++ [.parent, .parent, .parent]) ++ q)
        (.seq [.str "x"]) o () = q.run (.seq [.str "x"]) o () ∧
      q.run (.seq [.str "x"]) o () = (.ok (.map [("id", .str "7"), ("town", .str "Ulm")]), ()) ∧
      Pipeline.run (Step.ofMoves false (p ++ [.root]) ++ q) (.seq [.str "x"]) o () =
        q.run (.seq [.str "x"]) o () := by
  intro p q o
  have hp : Path.Descends p := by simp [Path.Descends, p, Move.isKey]
  obtain ⟨hparents, hroot, hmarks⟩ := run_back hp (by decide) q (.seq [.str "x"]) (o := o) rfl ()
  obtain ⟨hsame, -⟩ := hmarks (.inl rfl)
  exact ⟨hparents.1.trans hsame, rfl, hroot.1.trans hsame⟩

/-- A mark in front of the first key leaves no frame, so what it made of the value stays. -/
theorem run_back_wrapped :
    let p : List Move := [.each, .field "a"]
    let q : Pipeline Unit := []
    p.countP Move.isKey = 1 ∧
      Pipeline.run (Step.ofMoves false (p ++ [.parent]) ++ q) (.str "x") {} () =
        (.ok (.seq [.str "x"]), ()) ∧
      Pipeline.run (Step.ofMoves false (p ++ [.root]) ++ q) (.str "x") {} () =
        (.ok (.seq [.str "x"]), ()) ∧
      q.run (.str "x") {} () = (.ok (.str "x"), ()) ∧
      Pipeline.run (Step.ofMoves false (p ++ [.parent]) ++ q) (.str "x") {} () ≠
        q.run (.str "x") {} () ∧
      Pipeline.run (Step.ofMoves false (p ++ [.root]) ++ q) (.str "x") {} () ≠
        q.run (.str "x") {} () := by
  refine ⟨rfl, rfl, rfl, rfl, ?_, ?_⟩
  all_goals
    change ((.ok (.seq [.str "x"]), ()) : Except Fault Value × Unit) ≠ (.ok (.str "x"), ())
    simp

end Reshape
