import Reshape.Proofs.Pipeline.Clean
import Reshape.Proofs.Shape.ConstantField
import Reshape.Proofs.Shape.Reapply

/-!
# Spreading the input

A shape with `$modify: true` spreads its input over what it builds, before any other field, in
forward runs. A map spread over nothing is that map, and anything else leaves nothing, just as for a
target that results are taken up into (`absorb_spread`). So the forward run of the shape is that of
the shape without the key on top of its own input (`run_modify`), item by item where it iterates
(`Shape.run_spread`).
-/

namespace Reshape

variable {ω : Type}

/-! ### Compiling -/

namespace Definition

section
variable {voc : Vocabulary ω} {front back : Entries Json}

theorem get?_between (front back : Entries Json) {key other : String} (h : other ≠ key) (j : Json) :
    Entries.get? (front ++ (key, j) :: back) other = Entries.get? (front ++ back) other := by
  simp [Entries.get?_append, Entries.get?, Ne.symm h]

/-- `$modify: true` puts a spread of the input in front of the fields, wherever the key stands. -/
theorem compile_modify (hmarker : marker? (front ++ back) = none)
    (hmodify : Entries.get? (front ++ back) "$modify" = none) {p : Pipeline ω}
    (hp : compile voc (.obj (front ++ back)) = .ok p) :
    ∃ sh : Shape (Step ω), p = [.shape sh] ∧ sh.flip = flag (front ++ back) "$flip" ∧
      compile voc (.obj (front ++ ("$modify", .bool true) :: back)) =
        .ok [.shape { sh with fields := spreadField "." [] :: sh.fields }] := by
  have hsame (key : String) (hkey : key ≠ "$modify") :=
    get?_between front back hkey (.bool true)
  have hmarker' : marker? (front ++ ("$modify", .bool true) :: back) = none := by
    rw [← hmarker, marker?, marker?]
    refine congrArg (List.find? · Marker.all) (funext fun m => ?_)
    rw [Entries.contains, Entries.contains, hsame m.key (by cases m <;> decide)]
  have hspread : spreadFields (front ++ ("$modify", .bool true) :: back) =
      [(spreadField "." [] : Field (Step ω))] := by
    have hfront : Entries.get? front "$modify" = none := by
      rw [Entries.get?_append, Option.or_eq_none_iff] at hmodify
      exact hmodify.1
    simp [spreadFields, Entries.get?_append, Entries.get?, hfront]
  have hspread' : spreadFields (front ++ back) = ([] : List (Field (Step ω))) := by
    simp [spreadFields, hmodify]
  have hfields (named : String → Except Fault (Pipeline ω)) :
      keyedFields voc named (front ++ ("$modify", .bool true) :: back) =
        keyedFields voc named (front ++ back) := by
    have hdollar : isDollarKey "$modify" = true := by decide
    rw [keyedFields_append, keyedFields_append, keyedFields, if_pos hdollar]
  rw [compile, steps_shape voc _ hmarker, hspread'] at hp
  rw [compile, steps_shape voc _ hmarker', hspread, hfields]
  simp only [flag, restriction, hsame "$iterate" (by decide), hsame "$flip" (by decide),
    hsame "$noDefaults" (by decide), hsame "$alwaysApply" (by decide),
    hsame "$direction" (by decide)]
  cases hfs : keyedFields voc (namedPipeline voc voc.registry.pipelines) (front ++ back) with
  | error e =>
    rw [hfs] at hp
    cases hp
  | ok fs =>
    rw [hfs] at hp
    exact ⟨_, (Except.ok.inj hp).symm, rfl, rfl⟩

end

end Definition

/-! ### Running -/

/-- The field that spreads the input. -/
def Branch.spread : Branch ω where
  merge := some .current
  only := some .forward
  run := fun v _ => .done v

theorem branches_spread (fs : List (Field (Step ω))) :
    branches (Definition.spreadField "." [] :: fs) = Branch.spread :: branches fs := by
  have hempty : (runParts [] : Runner ω) = fun v _ => .done v := by
    funext v s
    rw [runParts]
    split <;> rfl
  exact congrArg (Branch.mk (some .current) (some .forward) · :: branches fs) hempty

/-- Spread over nothing, a value leaves what it leaves as a target. -/
theorem absorb_spread {ns : Nonvalues} (hns : ns.Scalar) {v : Value} (hclean : v.Clean)
    (hdistinct : v.Distinct) :
    (Branch.spread : Branch ω).absorb ns (.map []) v = seed (some v) := by
  cases v with
  | map es =>
    have hpresent : ∀ b ∈ es, b.2.isAbsent = false := ((Value.everywhere_map es).1 hclean).1
    rw [Branch.absorb_first _ (.inl rfl) (hns.contains_map es)]
    exact congrArg Value.map (Binding.bind_empty _ hdistinct.nodup hpresent)
  | _ =>
    rw [Branch.absorb]
    split <;> rfl

section
variable {s : State}

/-- In a forward run without a target, the input is the target that a spread of it stands for. -/
theorem assemble_spread (hs : s.effective = .forward) (ht : s.target = none)
    (hns : s.nonvalues.Scalar) {v : Value} (hclean : v.Clean) (hdistinct : v.Distinct)
    (bs : List (Branch ω)) :
    assemble (Branch.spread :: bs) v s = assemble bs v (s.withTarget (some v)) := by
  have hactive : activeIn s (Branch.spread :: bs) = Branch.spread :: activeIn s bs := by
    rw [activeIn, List.filter_cons, if_pos (by rw [hs]; rfl)]
    rfl
  have hgather : gather (Branch.spread :: bs) v s = (gather bs v s).map (v :: ·) := by
    rw [gather, hactive]
    exact Task.map_map ..
  rw [assemble_eq, assemble_eq, hgather, Task.map_map, hactive, ht]
  refine congrArg (Task.map · (gather bs v s)) (funext fun results => ?_)
  rw [List.zip_cons_cons, absorbAll_cons]
  exact congrArg (absorbAll s.nonvalues · _) (absorb_spread hns hclean hdistinct)

/-- A shape runs with a spread of its input as it does on top of the input; where it iterates, the
items are the slots of the target. -/
theorem Shape.run_spread {σ : Type} {sh : Shape σ} (hflip : sh.flip = false)
    (hs : s.effective = .forward) (ht : s.target = none) (hns : s.nonvalues.Scalar) {v : Value}
    (hclean : v.Clean) (hdistinct : v.Distinct) (bs : List (Branch ω)) :
    sh.run (Branch.spread :: bs) v s = sh.run bs v (s.withTarget (some v)) := by
  have hinner : (sh.enter s).effective = .forward := by
    simpa [State.effective, enter, hflip] using hs
  -- The fields see one value, without a target or on top of itself.
  have hvalue {x : Value} (hx : x.Clean) (hx' : x.Distinct) (c : Context) :
      assemble (Branch.spread :: bs) x (((sh.enter s).withContext c).withTarget none) =
        assemble bs x (((sh.enter s).withContext c).withTarget (some x)) :=
    assemble_spread (s := ((sh.enter s).withContext c).withTarget none) hinner rfl hns hx hx' bs
  have hnone : (sh.enter s).target = none := ht
  rw [run, run]
  refine if_congr Iff.rfl rfl ?_
  split
  · rename_i items _
    have hclean := (Value.hereditary_clean.seq items).1 hclean
    have hdistinct := (Value.hereditary_distinct.seq items).1 hdistinct
    refine congrArg (Task.map Value.seq) (Task.forItems_congr fun a ha => ?_)
    obtain ⟨x, i⟩ := a
    have hslot : items[i]? = some x := List.mem_zipIdx_iff_getElem?.1 ha
    have hx := List.mem_of_getElem? hslot
    refine if_congr Iff.rfl rfl ?_
    simp only [ht, State.withTarget, Option.bind_some, Value.items?, Option.getD_some, hslot]
    exact hvalue (hclean x hx) (hdistinct x hx) _
  · refine if_congr Iff.rfl rfl ?_
    have hstate := State.withTarget_eq_self hnone
    exact (congrArg _ hstate.symm).trans (hvalue hclean hdistinct s.context)

theorem start_spread {sh : Shape (Step ω)} (hflip : sh.flip = false) (hs : s.effective = .forward)
    (ht : s.target = none) (hns : s.nonvalues.Scalar) {v : Value} (hclean : v.Clean)
    (hdistinct : v.Distinct) :
    Pipeline.start [.shape { sh with fields := Definition.spreadField "." [] :: sh.fields }] v s =
      Pipeline.start [.shape sh] v (s.withTarget (some v)) := by
  obtain ⟨fields, iterate, flip, noDefaults, always, only⟩ := sh
  have hruns : Shape.run ⟨fields, iterate, flip, noDefaults, always, only⟩
        (Branch.spread :: branches fields) v s =
      Shape.run ⟨fields, iterate, flip, noDefaults, always, only⟩ (branches fields) v
        (s.withTarget (some v)) := Shape.run_spread hflip hs ht hns hclean hdistinct _
  rw [Pipeline.start, Pipeline.start, runSteps_shape, runSteps_shape]
  refine if_congr Iff.rfl rfl ?_
  rw [runShape, branches_spread]
  exact hruns

end

/-- A shape with `$modify: true` runs forward like the shape without that key on top of its input,
whatever else the shape has, as long as it does not turn the direction round. Values have no absent
entries here, and as always they repeat no key. -/
theorem run_modify {voc : Vocabulary ω} {front back : Entries Json}
    (hshape : Definition.marker? (front ++ back) = none)
    (hmodify : Entries.get? (front ++ back) "$modify" = none)
    (hflip : Definition.flag (front ++ back) "$flip" = false) {p : Pipeline ω}
    (hp : compile voc (.obj (front ++ back)) = .ok p) :
    ∃ q : Pipeline ω, compile voc (.obj (front ++ ("$modify", .bool true) :: back)) = .ok q ∧
      ∀ o : Options, o.direction.flippedBy o.flip = .forward → o.target = none →
        o.nonvalues.Scalar → ∀ v : Value, v.Clean → v.Distinct → ∀ w,
          q.run v o w = p.run v { o with target := some v } w ∧
          q.runAsync v o w = p.runAsync v { o with target := some v } w := by
  obtain ⟨sh, rfl, hsh, hq⟩ := Definition.compile_modify hshape hmodify hp
  refine ⟨_, hq, fun o hs ht hns v hclean hdistinct w => ?_⟩
  have hstart := start_spread (s := .ofOptions o) (hsh.trans hflip) hs ht hns hclean hdistinct
  exact ⟨congrArg (Task.runSync · w) hstart, congrArg (Task.complete · w) hstart⟩

/-- Items that are a map, a nonvalue and no map, with a field that overrides an entry. -/
theorem run_modify_items :
    ∃ p q : Pipeline Unit,
      Definition.marker? ([("$iterate", .bool true)] ++ [("n", .str "a"), ("k", .int 1)]) = none ∧
      compile {} (.obj ([("$iterate", .bool true)] ++ [("n", .str "a"), ("k", .int 1)])) = .ok p ∧
      compile {} (.obj ([("$iterate", .bool true)] ++
        ("$modify", .bool true) :: [("n", .str "a"), ("k", .int 1)])) = .ok q ∧
      (q.run (.seq [.map [("k", .null), ("a", .str "x")], .null, .str "y"])
        { nonvalues := { added := [.null] } } ()) =
        p.run (.seq [.map [("k", .null), ("a", .str "x")], .null, .str "y"])
          { nonvalues := { added := [.null] }
            target := some (.seq [.map [("k", .null), ("a", .str "x")], .null, .str "y"]) } () ∧
      (q.run (.seq [.map [("k", .null), ("a", .str "x")], .null, .str "y"])
        { nonvalues := { added := [.null] } } ()).1 =
        .ok (.seq [.map [("k", .int 1), ("a", .str "x"), ("n", .str "x")], .null,
          .map [("k", .int 1)]]) := by
  obtain ⟨p, hp⟩ : ∃ p : Pipeline Unit,
      compile {} (.obj ([("$iterate", .bool true)] ++ [("n", .str "a"), ("k", .int 1)])) = .ok p :=
    ⟨_, rfl⟩
  obtain ⟨q, hq, hruns⟩ := run_modify (by decide) rfl rfl hp
  have hrun := (hruns { nonvalues := { added := [.null] } } rfl rfl (by decide)
    (.seq [.map [("k", .null), ("a", .str "x")], .null, .str "y"]) (by decide) (by decide) ()).1
  refine ⟨p, q, by decide, hp, hq, hrun, ?_⟩
  cases hp
  cases hq
  rfl

end Reshape
