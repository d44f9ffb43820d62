import Mathlib.Data.List.Basic
import Mathlib.Data.List.Flatten
import Reshape.Proofs.Path.ReadBack

/-!
# Wider nonvalue sets

What a path of names and marks reads under a wider nonvalue set is a remnant of what it reads under
a narrower one: nothing, the same, or some of the items (`run_widened`). The nonvalues take part in
a reading at the input, in the items that a mark drops, and where a mark behind a missing key makes
an empty sequence instead of wrapping the value. The two readings are compared step by step
(`Trails`): as long as they agree, a key that the wider set finds missing in front of a nonvalue is
missing under the narrower one too.
-/

namespace Reshape

variable {ω : Type}

namespace Nonvalues

/-- Whatever is a nonvalue of `ns` is one of `wide`. -/
def Within (ns wide : Nonvalues) : Prop :=
  ∀ v, ns.contains v = true → wide.contains v = true

variable {ns wide : Nonvalues}

theorem within_of_subset (h : ns.added ⊆ wide.added) : ns.Within wide := by
  intro v hv
  obtain ⟨u, hu, heq⟩ := List.any_eq_true.1 hv
  exact List.any_eq_true.2 ⟨u, List.cons_subset_cons .absent h hu, heq⟩

theorem Within.present (hw : ns.Within wide) {v : Value} (h : wide.contains v = false) :
    ns.contains v = false :=
  Bool.eq_false_iff.2 fun hin => by simp [hw v hin] at h

end Nonvalues

/-- What is left of a value: nothing, all of it, or some items of a sequence. -/
inductive Value.Remnant : Value → Value → Prop where
  | gone (v : Value) : Remnant .absent v
  | same (v : Value) : Remnant v v
  | items {ys xs : List Value} : ys.Sublist xs → Remnant (.seq ys) (.seq xs)

namespace Path

/-- A path of names and marks. -/
def Named (p : List Move) : Prop :=
  ∀ m ∈ p, (∃ name, m = .field name) ∨ m = .each

variable {ns wide : Nonvalues}

/-! ### One move -/

theorem extractEach_of_not_isSeq {u : Value} (hu : u.isSeq = false) (afterMissing : Bool) :
    extractEach ns afterMissing u =
      if ns.contains u then if afterMissing then .seq [] else .absent else .seq [u] := by
  cases u with
  | seq => cases hu
  | _ => rfl

/-- A mark keeps fewer of fewer items. -/
theorem extractEach_sublist (hw : ns.Within wide) {ys xs : List Value} (h : ys.Sublist xs) :
    ((ys.flatMap Value.toItems).filter (!wide.contains ·)).Sublist
      ((xs.flatMap Value.toItems).filter (!ns.contains ·)) := by
  have hkeep (x : Value) (hx : (!wide.contains x) = true) : (!ns.contains x) = true := by
    rw [hw.present (by simpa using hx)]
    rfl
  exact ((h.flatMap Value.toItems).filter _).trans (List.monotone_filter_right _ hkeep)

/-- A reading under a wider nonvalue set, next to the one of the same path under `ns`. -/
inductive Trails (ns : Nonvalues) (wider plain : Reading) : Prop where
  | gone : wider.value = .absent → wider.missing = false → Trails ns wider plain
  | same : wider.value = plain.value →
      (wider.missing = true → ns.contains plain.value = true → plain.missing = true) →
      Trails ns wider plain
  | items {ys xs : List Value} : wider.value = .seq ys → plain.value = .seq xs → ys.Sublist xs →
      Trails ns wider plain

section
variable {wider plain : Reading}

theorem Trails.remnant (h : Trails ns wider plain) : wider.value.Remnant plain.value := by
  cases h with
  | gone hvalue _ =>
    rw [hvalue]
    exact .gone _
  | same hvalue _ =>
    rw [hvalue]
    exact .same _
  | items hys hxs h =>
    rw [hys, hxs]
    exact .items h

theorem Trails.field (hw : ns.Within wide) (h : Trails ns wider plain) (name : String) :
    Trails ns (wider.step wide (.field name)) (plain.step ns (.field name)) := by
  cases h with
  | gone hvalue _ =>
    refine .gone ?_ ?_
    · simp [Reading.step, Reading.descend, hvalue, extractField]
    · simp [Reading.step, Reading.descend, hvalue]
  | same hvalue _ =>
    refine .same ?_ fun hmissing hnext => ?_
    · simp only [Reading.step, Reading.descend, hvalue]
    · -- What is present under the wider set was present under the narrower one.
      have hpresent : wide.contains plain.value = false := by
        simp only [Reading.step, Reading.descend, hvalue, Bool.and_eq_true] at hmissing
        simpa using hmissing.1
      simp only [Reading.step, Reading.descend] at hnext ⊢
      simp [hw.present hpresent, hnext]
  | items hys hxs h =>
    refine .items ?_ ?_ (h.map (extractField name))
    · simp [Reading.step, Reading.descend, hys, extractField, extractFieldItems_eq_map]
    · simp [Reading.step, Reading.descend, hxs, extractField, extractFieldItems_eq_map]

/-- A mark where the two readings agree on something that is no sequence. -/
theorem Trails.each_wrap (hw : ns.Within wide) {u : Value} (hu : u.isSeq = false)
    (hwider : wider.value = u) (hplain : plain.value = u)
    (hmissing : wider.missing = true → ns.contains u = true → plain.missing = true) :
    Trails ns (wider.step wide .each) (plain.step ns .each) := by
  cases hwide : wide.contains u with
  | false =>
    refine .same ?_ fun h => nomatch h
    simp [Reading.step, hwider, hplain, extractEach_of_not_isSeq hu, hwide, hw.present hwide]
  | true =>
    cases hm : wider.missing with
    | false =>
      refine .gone ?_ rfl
      simp [Reading.step, hwider, extractEach_of_not_isSeq hu, hwide, hm]
    | true =>
      have hempty : (wider.step wide .each).value = .seq [] := by
        simp [Reading.step, hwider, extractEach_of_not_isSeq hu, hwide, hm]
      cases hns : ns.contains u with
      | false =>
        have hkept : (plain.step ns .each).value = .seq [u] := by
          simp [Reading.step, hplain, extractEach_of_not_isSeq hu, hns]
        exact .items hempty hkept (List.nil_sublist _)
      | true =>
        have hnothing : (plain.step ns .each).value = .seq [] := by
          simp [Reading.step, hplain, extractEach_of_not_isSeq hu, hns, hmissing hm hns]
        exact .items hempty hnothing (List.Sublist.refl _)

theorem Trails.each (hw : ns.Within wide) (h : Trails ns wider plain) :
    Trails ns (wider.step wide .each) (plain.step ns .each) := by
  have hseq {ys xs : List Value} (hys : wider.value = .seq ys) (hxs : plain.value = .seq xs)
      (h : ys.Sublist xs) : Trails ns (wider.step wide .each) (plain.step ns .each) := by
    refine .items ?_ ?_ (extractEach_sublist hw h)
    · simp only [Reading.step, hys, extractEach]
    · simp only [Reading.step, hxs, extractEach]
  cases h with
  | gone hvalue hmissing =>
    refine .gone ?_ rfl
    simp [Reading.step, hvalue, hmissing, extractEach]
  | same hvalue hmissing =>
    cases hu : plain.value with
    | seq xs => exact hseq (hvalue.trans hu) hu (List.Sublist.refl xs)
    | _ => exact each_wrap hw rfl (hvalue.trans hu) hu (hu ▸ hmissing)
  | items hys hxs h => exact hseq hys hxs h

/-! ### A path -/

theorem Trails.foldl (hw : ns.Within wide) (h : Trails ns wider plain) {p : List Move}
    (hp : Named p) :
    Trails ns (p.foldl (Reading.step wide) wider) (p.foldl (Reading.step ns) plain) := by
  induction p generalizing wider plain with
  | nil => exact h
  | cons m rest ih =>
    obtain ⟨hm, hrest⟩ := List.forall_mem_cons.1 hp
    rcases hm with ⟨name, rfl⟩ | rfl
    · exact ih (h.field hw name) hrest
    · exact ih (h.each hw) hrest

end

theorem extract_remnant (hw : ns.Within wide) {p : List Move} (hp : Named p) (v : Value)
    (c : Context) : (extract wide p v c).1.Remnant (extract ns p v c).1 := by
  have hstart : Trails ns { value := v, context := c } { value := v, context := c } :=
    .same rfl fun h => nomatch h
  exact (hstart.foldl hw hp).remnant

end Path

/-! ### Runs -/

/-- In a forward run along names and marks, a wider nonvalue set never keeps more: the result is
absent, or that of the narrower set, or a sequence of some items of it. -/
theorem run_widened {ns wide : Nonvalues} (hw : ns.Within wide) {p : List Move}
    (hp : Path.Named p) {o : Options} (ho : o.direction.flippedBy o.flip = .forward) (v : Value)
    (w : ω) :
    ∃ plain widened : Value, widened.Remnant plain ∧
      (Pipeline.run (Step.ofMoves false p) v { o with nonvalues := ns } w = (.ok plain, w) ∧
        Pipeline.runAsync (Step.ofMoves false p) v { o with nonvalues := ns } w =
          (.ok plain, w)) ∧
      Pipeline.run (Step.ofMoves false p) v { o with nonvalues := wide } w = (.ok widened, w) ∧
        Pipeline.runAsync (Step.ofMoves false p) v { o with nonvalues := wide } w =
          (.ok widened, w) := by
  have hstart (set : Nonvalues) :
      Pipeline.start (Step.ofMoves false p : Pipeline ω) v
          (.ofOptions { o with nonvalues := set }) =
        .done (if set.contains v then .absent else (Path.extract set p v []).1) := by
    have hreads : false = State.isReverse (.ofOptions { o with nonvalues := set }) :=
      (congrArg Direction.isReverse ho).symm
    exact start_moves hreads p v
  refine ⟨_, _, ?_, ⟨congrArg (Task.runSync · w) (hstart ns),
    congrArg (Task.complete · w) (hstart ns)⟩, congrArg (Task.runSync · w) (hstart wide),
    congrArg (Task.complete · w) (hstart wide)⟩
  cases hwide : wide.contains v with
  | true => exact .gone _
  | false =>
    rw [hw.present hwide]
    exact Path.extract_remnant hw hp v []

/-- With null among the nonvalues a mark drops it from among its items, and behind a null a key is
no longer missing, so the mark in front of it has nothing to make an empty sequence of. -/
theorem run_widened_null :
    let wide : Nonvalues := ⟨[.null]⟩
    let ids : Pipeline Unit := Step.ofMoves false [.field "tags", .each, .field "id", .each]
    let town : Pipeline Unit := Step.ofMoves false [.field "at", .field "town", .each]
    let tags : Value := .map [("tags", .seq [.map [("id", .str "x")], .map [("id", .null)],
      .map [("id", .seq [.null, .str "y"])]])]
    let place : Value := .map [("at", .null)]
    Nonvalues.Within {} wide ∧
      (ids.run tags {} () = (.ok (.seq [.str "x", .null, .null, .str "y"]), ()) ∧
        ids.run tags { nonvalues := wide } () = (.ok (.seq [.str "x", .str "y"]), ()) ∧
        Value.Remnant (.seq [.str "x", .str "y"]) (.seq [.str "x", .null, .null, .str "y"])) ∧
      town.run place {} () = (.ok (.seq []), ()) ∧
        town.run place { nonvalues := wide } () = (.ok .absent, ()) ∧
        Value.Remnant .absent (.seq []) := by
  intro wide ids town tags place
  have hw : Nonvalues.Within {} wide := Nonvalues.within_of_subset (List.nil_subset _)
  obtain ⟨plain, widened, hids, ⟨hplain, -⟩, hwidened, -⟩ :=
    run_widened (p := [.field "tags", .each, .field "id", .each]) hw (by simp [Path.Named])
      (o := {}) rfl tags ()
  obtain ⟨plain', widened', htown, ⟨hplain', -⟩, hwidened', -⟩ :=
    run_widened (p := [.field "at", .field "town", .each]) hw (by simp [Path.Named])
      (o := {}) rfl place ()
  cases (hplain : ((.ok (.seq [.str "x", .null, .null, .str "y"]), ()) :
    Except Fault Value × Unit) = _)
  cases (hwidened : ((.ok (.seq [.str "x", .str "y"]), ()) : Except Fault Value × Unit) = _)
  cases (hplain' : ((.ok (.seq []), ()) : Except Fault Value × Unit) = _)
  cases (hwidened' : ((.ok .absent, ()) : Except Fault Value × Unit) = _)
  exact ⟨hw, ⟨rfl, rfl, hids⟩, rfl, rfl, htown⟩

end Reshape
