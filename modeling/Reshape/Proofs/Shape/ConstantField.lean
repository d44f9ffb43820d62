import Reshape.Proofs.Shape.Absorb
import Reshape.Proofs.Shape.SingleField
import Reshape.Proofs.Task.Outcome
import Reshape.Proofs.Value.Inclusion

/-!
# Constant fields in reverse runs

In a reverse run a field that supplies a constant still supplies it, if there is something at its
key, and the constant is merged into what the shape builds. It leaves no trace if it is a nonvalue,
if what the fields in front of it build covers it, or if a field behind it overrides it
(`Traceless`). Then the shape runs as it does without the field (`run_reverse_constant`). Without
such company the constant itself is the result (`run_reverse_constant_alone`).
-/

namespace Reshape

variable {ω : Type}

/-! ### Compiling -/

/-- A field that supplies a constant and sets it on a name. -/
def Field.constant (text : String) (c : Value) (fixed : Bool) (name : String) : Field (Step ω) :=
  Field.setting text [.op (.value (.constant c) fixed) {}] [name]

namespace Definition

/-- The definitions of constants: what they supply, and whether they do so where defaults are left
out. -/
inductive Constant : Json → Value → Bool → Prop
  | value (j : Json) : Constant (.obj [("$value", j)]) (.ofJson j) false
  | fixed (j : Json) : Constant (.obj [("$fixed", j)]) (.ofJson j) true
  | null : Constant .null .null false
  | bool (b : Bool) : Constant (.bool b) (.bool b) false
  | int (n : Int) : Constant (.int n) (.ofJson (.int n)) false
  | float (x : Float) : Constant (.float x) (.float x) false

/-- All keys are plain names. -/
def PlainKeys (es : Entries Json) : Prop :=
  ∀ b ∈ es, ∃ name, Path.Spells b.1 name

section
variable {voc : Vocabulary ω} {named : String → Except Fault (Pipeline ω)}

theorem steps_constant {d : Json} {c : Value} {fixed : Bool} (hd : Constant d c fixed) :
    steps voc named d = .ok [.op (.value (.constant c) fixed) {}] := by
  cases hd with
  | value j =>
    have hmarker : marker? [("$value", j)] = some .value := rfl
    rw [steps, hmarker]
    rfl
  | fixed j =>
    have hmarker : marker? [("$fixed", j)] = some .fixed := rfl
    rw [steps, hmarker]
    rfl
  | _ => rfl

theorem keyedFields_append (xs ys : Entries Json) :
    keyedFields voc named (xs ++ ys) =
      keyedFields voc named xs >>= fun fs => (fs ++ ·) <$> keyedFields voc named ys := by
  induction xs with
  | nil =>
    rw [List.nil_append, keyedFields]
    cases keyedFields voc named ys <;> rfl
  | cons b rest ih =>
    obtain ⟨key, j⟩ := b
    rw [List.cons_append, keyedFields, keyedFields]
    split
    · exact ih
    · rw [ih]
      cases steps voc named j with
      | error e => rfl
      | ok p =>
        cases keyedFields voc named rest with
        | error e => rfl
        | ok fs => cases keyedFields voc named ys <;> rfl

/-- A field under a plain key sets that name. -/
theorem keyedFields_cons {key name : String} (hkey : Path.Spells key name) {d : Json}
    {p : Pipeline ω} (hd : steps voc named d = .ok p) (es : Entries Json) :
    keyedFields voc named ((key, d) :: es) =
      (Field.setting key p [name] :: ·) <$> keyedFields voc named es :=
  keyedFields_setting hkey.isDollarKey_eq hkey.names?_eq (List.cons_ne_nil name []) hd es

theorem steps_plain {es : Entries Json} (hes : PlainKeys es) :
    steps voc named (.obj es) =
      (fun fs => [.shape { fields := fs }]) <$> keyedFields voc named es :=
  steps_fields fun b hb => (hes b hb).choose_spec.isDollarKey_eq

/-- The fields under plain keys run in both directions, and none of them ends in a merge. -/
theorem branches_plain {es : Entries Json} (hes : PlainKeys es) {fs : List (Field (Step ω))}
    (hfs : keyedFields voc named es = .ok fs) :
    ∀ b ∈ branches fs, b.merge = none ∧ b.only = none := by
  induction es generalizing fs with
  | nil =>
    cases hfs
    intro b hb
    cases hb
  | cons entry rest ih =>
    obtain ⟨key, j⟩ := entry
    obtain ⟨⟨name, hname⟩, hrest⟩ := List.forall_mem_cons.1 hes
    cases hp : steps voc named j with
    | error e =>
      rw [keyedFields, if_neg (by simp [hname.isDollarKey_eq]), hp] at hfs
      cases hfs
    | ok p =>
      rw [keyedFields_cons hname hp] at hfs
      cases hmore : keyedFields voc named rest with
      | error e =>
        rw [hmore] at hfs
        cases hfs
      | ok gs =>
        rw [hmore] at hfs
        obtain rfl := Except.ok.inj hfs
        rw [branches_setting _ _ (List.cons_ne_nil name [])]
        exact List.forall_mem_cons.2 ⟨⟨rfl, rfl⟩, ih hrest hmore⟩

/-- The field of a constant stands where its key stands. -/
theorem compile_insert {front back : Entries Json} (hes : PlainKeys (front ++ back))
    {key name : String} (hkey : Path.Spells key name) {d : Json} {c : Value} {fixed : Bool}
    (hd : Constant d c fixed) {p : Pipeline ω} (hp : compile voc (.obj (front ++ back)) = .ok p) :
    ∃ fs gs : List (Field (Step ω)),
      compile voc (.obj front) = .ok [.shape { fields := fs }] ∧
      compile voc (.obj back) = .ok [.shape { fields := gs }] ∧
      p = [.shape { fields := fs ++ gs }] ∧
      (∀ b ∈ branches gs, b.merge = none ∧ b.only = none) ∧
      compile voc (.obj (front ++ (key, d) :: back)) =
        .ok [.shape { fields := fs ++ Field.constant key c fixed name :: gs }] := by
  have hfront : PlainKeys front := fun b hb => hes b (List.mem_append_left _ hb)
  have hback : PlainKeys back := fun b hb => hes b (List.mem_append_right _ hb)
  have hall : PlainKeys (front ++ (key, d) :: back) := by
    intro b hb
    rcases List.mem_append.1 hb with hb | hb
    · exact hfront b hb
    · rcases List.mem_cons.1 hb with rfl | hb
      · exact ⟨name, hkey⟩
      · exact hback b hb
  rw [compile, steps_plain hes, keyedFields_append] at hp
  simp only [compile, steps_plain hfront, steps_plain hback, steps_plain hall, keyedFields_append,
    keyedFields_cons hkey (steps_constant hd)]
  cases hfs : keyedFields voc (namedPipeline voc voc.registry.pipelines) front with
  | error e =>
    rw [hfs] at hp
    cases hp
  | ok fs =>
    cases hgs : keyedFields voc (namedPipeline voc voc.registry.pipelines) back with
    | error e =>
      rw [hfs, hgs] at hp
      cases hp
    | ok gs =>
      rw [hfs, hgs] at hp
      exact ⟨fs, gs, rfl, rfl, (Except.ok.inj hp).symm, branches_plain hback hgs, rfl⟩

end

end Definition

/-! ### Runs of the field -/

/-- What the field of a constant supplies where its key reads `x`. -/
def State.supplied (s : State) (c : Value) (fixed : Bool) (x : Value) : Value :=
  if s.isNonvalue x || s.noDefaults && !fixed then .absent else c

theorem runSteps_constant {s : State} (hs : s.effective = .reverse) (halways : s.always = false)
    (c : Value) (fixed : Bool) (name : String) (v : Value) :
    Pipeline.runSteps ([.op (.value (.constant c) fixed) {}] ++
        Step.ofMoves true ([name].map .field) : Pipeline ω) v s =
      .done (s.supplied c fixed (Path.extractField name v)) := by
  have hend : Pipeline.EndsOutside true [(.op (.value (.constant c) fixed) {} : Step ω)] := by
    intro m h
    simp at h
  rw [runSteps_append_read hs hend (by simp), Path.extract_names, Pipeline.runSteps, stepParts,
    stepParts, Step.part, runParts_action, State.supplied]
  simp only [Flags.guard, Direction.admits, State.withContext, State.isNonvalue, halways,
    Bool.not_true, Bool.not_false, Bool.and_true, Bool.false_eq_true, if_false, Value.readNames,
    List.foldl_cons, List.foldl_nil, runOp, runOp.perItem, Op.runValue, Source.produce]
  by_cases hx : s.nonvalues.contains (Path.extractField name v) = true
  · simp [hx]
  · by_cases hd : (s.noDefaults && !fixed) = true
    · simp [hx, hd]
    · simp [hx, hd]

/-! ### Taking up the results -/

namespace Value

/-- What has been built leaves no place for `c`: it includes a map, and anything but a map gives way
to a map with entries. -/
def Covers (built c : Value) : Prop :=
  if c.isMap then built.Includes c else ∃ b es, built = map (b :: es)

/-- Nothing has been built, or something that is no map. -/
def Hollow (acc : Value) : Prop :=
  ∀ b es, acc ≠ map (b :: es)

end Value

section
variable {ns : Nonvalues} {b : Branch ω} {acc c : Value}

/-- To take up the result of a keyed field that is covered changes nothing. -/
theorem absorb_covered (hb : b.merge = none) (h : acc.Covers c) : b.absorb ns acc c = acc := by
  rw [Value.Covers] at h
  cases hc : c.isMap with
  | true =>
    rw [hc, if_pos rfl] at h
    have hmerge : acc.deepMerge c = acc := Value.deepMerge_of_includes h
    cases acc <;> simp [Branch.absorb, hb, hc, hmerge]
  | false =>
    rw [hc, if_neg Bool.false_ne_true] at h
    obtain ⟨b, es, rfl⟩ := h
    simp [Branch.absorb, hb, hc]

/-- A value that has no map replaces what has been built, and so does a map that merges into an
empty one unchanged. -/
theorem absorb_hollow (hb : b.merge = none) (hc : ns.contains c = false)
    (hsound : (Value.map []).deepMerge c = c) (hacc : acc.Hollow) : b.absorb ns acc c = c := by
  have hpresent := Nonvalues.isAbsent_of_present hc
  cases acc with
  | map es =>
    cases es with
    | nil => simpa [Branch.absorb, hb, hc] using hsound
    | cons b es => exact absurd rfl (hacc b es)
  | _ => simpa [Branch.absorb, hb, hc] using Value.deepMerge_of_not_isMap (.inl rfl) hpresent

end

/-! ### Traces -/

/-- The constant `c` leaves no trace between the fields in front of it and those behind it: it is a
nonvalue, or what is built in front covers it, or a field behind it has a result in any case, which
takes its place. -/
inductive Traceless (front back : List (Branch ω)) (v : Value) (s : State) (c : Value) : Prop
  | nonvalue (h : s.isNonvalue c = true)
  | covered (h : ∀ built, (assemble front v s).Returns built → built.Covers c)
  | overridden (hc : c.isMap = false)
    (hresult : ∃ b ∈ back, ∀ r, (b.run v (s.withTarget none)).Returns r → s.isNonvalue r = false)
    (hsound : ∀ b ∈ back, ∀ r, (b.run v (s.withTarget none)).Returns r →
      s.isNonvalue r = false → (Value.map []).deepMerge r = r)

section
variable {s : State} {v : Value}

/-- A result that replaces what is hollow makes what was there before irrelevant. -/
theorem absorbAll_hollow {ns : Nonvalues} {taken : List (Branch ω × Value)}
    (hkeyed : ∀ r ∈ taken, r.1.merge = none)
    (hsound : ∀ r ∈ taken, ns.contains r.2 = false → (Value.map []).deepMerge r.2 = r.2)
    (hresult : ∃ r ∈ taken, ns.contains r.2 = false) {acc acc' : Value} (hacc : acc.Hollow)
    (hacc' : acc'.Hollow) : absorbAll ns acc taken = absorbAll ns acc' taken := by
  induction taken with
  | nil => simp at hresult
  | cons r rest ih =>
    obtain ⟨b, result⟩ := r
    obtain ⟨hb, hrest⟩ := List.forall_mem_cons.1 hkeyed
    obtain ⟨hsb, hsrest⟩ := List.forall_mem_cons.1 hsound
    rw [absorbAll_cons, absorbAll_cons]
    by_cases hnonvalue : ns.contains result = true
    · have hskip (acc : Value) : b.absorb ns acc result = acc := by
        simp [Branch.absorb, hnonvalue]
      rw [hskip, hskip]
      exact ih hrest hsrest (by simpa [hnonvalue] using hresult)
    · have hpresent : ns.contains result = false := by simpa using hnonvalue
      rw [absorb_hollow hb hpresent (hsb hpresent) hacc,
        absorb_hollow hb hpresent (hsb hpresent) hacc']

private theorem forall₂_append_left {α β : Type} {R : α → β → Prop} {xs ys : List α} {zs : List β}
    (h : List.Forall₂ R (xs ++ ys) zs) :
    ∃ us vs, zs = us ++ vs ∧ List.Forall₂ R xs us ∧ List.Forall₂ R ys vs := by
  induction xs generalizing zs with
  | nil => exact ⟨[], zs, rfl, .nil, h⟩
  | cons x xs ih =>
    obtain ⟨z, zs, hz, hzs, rfl⟩ := List.forall₂_cons_left_iff.1 h
    obtain ⟨us, vs, rfl, hus, hvs⟩ := ih hzs
    exact ⟨z :: us, vs, rfl, .cons hz hus, hvs⟩

private theorem exists_mem_zip {α β : Type} {xs : List α} {ys : List β}
    (h : xs.length = ys.length) {x : α} (hx : x ∈ xs) : ∃ y, (x, y) ∈ xs.zip ys := by
  have hfst : (xs.zip ys).map Prod.fst = xs := List.map_fst_zip (Nat.le_of_eq h)
  rw [← hfst] at hx
  obtain ⟨⟨_, y⟩, hy, rfl⟩ := List.mem_map.1 hx
  exact ⟨y, hy⟩

private theorem insertIdx_append {α : Type} (us vs : List α) (a : α) :
    (us ++ vs).insertIdx us.length a = us ++ a :: vs := by
  induction us with
  | nil => rfl
  | cons u us ih => simpa using ih

/-- What comes behind a constant that leaves no trace makes the same of what has been built with it
and without it. -/
theorem absorbAll_traceless {front back : List (Branch ω)} {b : Branch ω} {c built : Value}
    (hkeyed : ∀ b ∈ back, b.merge = none) (hb : b.merge = none)
    (htrace : Traceless front back v s c) (hbuilt : (assemble front v s).Returns built)
    {results : List Value}
    (hresults : List.Forall₂ (fun b r => (b.run v (s.withTarget none)).Returns r) back results) :
    absorbAll s.nonvalues (b.absorb s.nonvalues built c) (back.zip results) =
      absorbAll s.nonvalues built (back.zip results) := by
  have hnonvalue (h : s.nonvalues.contains c = true) : b.absorb s.nonvalues built c = built := by
    simp [Branch.absorb, h]
  cases htrace with
  | nonvalue h => rw [hnonvalue h]
  | covered h => rw [absorb_covered hb (h built hbuilt)]
  | overridden hc hresult hsound =>
    by_cases hnv : s.nonvalues.contains c = true
    · rw [hnonvalue hnv]
    have hnv : s.nonvalues.contains c = false := by simpa using hnv
    by_cases hfull : ∃ b es, built = .map (b :: es)
    · have hcovers : built.Covers c := by
        rw [Value.Covers, hc, if_neg Bool.false_ne_true]
        exact hfull
      rw [absorb_covered hb hcovers]
    have hhollow : built.Hollow := fun b es h => hfull ⟨b, es, h⟩
    have hc' : c.Hollow := by
      rintro b es rfl
      cases hc
    have hmerge : (Value.map []).deepMerge c = c :=
      Value.deepMerge_of_not_isMap (.inr hc) (Nonvalues.isAbsent_of_present hnv)
    have hzip : ∀ r ∈ back.zip results,
        r.1 ∈ back ∧ (r.1.run v (s.withTarget none)).Returns r.2 := fun r hr =>
      ⟨(List.of_mem_zip hr).1, List.forall₂_iff_zip.1 hresults |>.2 hr⟩
    rw [absorb_hollow hb hnv hmerge hhollow]
    refine absorbAll_hollow (fun r hr => hkeyed _ (hzip r hr).1)
      (fun r hr => hsound _ (hzip r hr).1 _ (hzip r hr).2) ?_ hc' hhollow
    obtain ⟨b', hb', hpresent⟩ := hresult
    obtain ⟨r, hr⟩ := exists_mem_zip hresults.length_eq hb'
    exact ⟨_, hr, hpresent r (hzip _ hr).2⟩

/-- A field that leaves no trace can be left out. -/
theorem assemble_insert {front back : List (Branch ω)}
    (hplain : ∀ b ∈ back, b.merge = none ∧ b.only = none) {b : Branch ω} (hb : b.merge = none)
    (hb' : b.only = none) {c : Value} (hrun : b.run v (s.withTarget none) = .done c)
    (htrace : Traceless front back v s c) :
    assemble (front ++ b :: back) v s = assemble (front ++ back) v s := by
  have hback : activeIn s back = back :=
    List.filter_eq_self.2 fun b hb => by simp [Direction.admits, (hplain b hb).2]
  have hrest : activeIn s (front ++ back) = activeIn s front ++ back := by
    rw [activeIn, List.filter_append, ← activeIn, ← activeIn, hback]
  have hall : activeIn s (front ++ b :: back) = activeIn s front ++ b :: back := by
    have hadmits : Direction.admits b.only s.effective = true := by rw [hb', Direction.admits]
    rw [activeIn, List.filter_append, List.filter_cons, if_pos hadmits, ← activeIn, ← activeIn,
      hback]
  simp only [assemble_eq, gather, hrest, hall, List.map_append, List.map_cons, hrun,
    Task.joinAll_insert_done, Task.map_map]
  refine Task.map_congr fun results hresults => ?_
  obtain ⟨us, vs, rfl, hus, hvs⟩ := forall₂_append_left ((Task.returns_joinAll ..).1 hresults)
  have hlength : (activeIn s front).length = us.length := by simpa using hus.length_eq
  have hbuilt : (assemble front v s).Returns
      (absorbAll s.nonvalues (seed s.target) ((activeIn s front).zip us)) := by
    rw [assemble_eq]
    exact (Task.returns_map ..).2 ⟨us, (Task.returns_joinAll ..).2 hus, rfl⟩
  rw [List.length_map, hlength, insertIdx_append, List.zip_append hlength, List.zip_append hlength,
    List.zip_cons_cons, absorbAll_append, absorbAll_append, absorbAll_cons]
  exact absorbAll_traceless (fun b hb => (hplain b hb).1) hb htrace hbuilt
    (List.forall₂_map_left_iff.1 hvs)

theorem branches_append (fs gs : List (Field (Step ω))) :
    branches (fs ++ gs) = branches fs ++ branches gs := by
  induction fs with
  | nil => rfl
  | cons f rest ih => simp only [List.cons_append, branches, ih]

theorem fieldsHaveAlways_append (fs gs : List (Field (Step ω))) :
    fieldsHaveAlways (fs ++ gs) = (fieldsHaveAlways fs || fieldsHaveAlways gs) := by
  induction fs with
  | nil => rfl
  | cons f rest ih => simp only [List.cons_append, fieldsHaveAlways, ih, Bool.or_assoc]

theorem start_insert {fs gs : List (Field (Step ω))}
    (hplain : ∀ b ∈ branches gs, b.merge = none ∧ b.only = none) (hs : s.effective = .reverse)
    (halways : s.always = false) (key : String) {name : String} {c : Value} {fixed : Bool}
    (htrace : Traceless (branches fs) (branches gs) v s
      (s.supplied c fixed (Path.extractField name v))) :
    Pipeline.start [.shape { fields := fs ++ Field.constant key c fixed name :: gs }] v s =
      Pipeline.start [.shape { fields := fs ++ gs }] v s := by
  have hname : [name] ≠ [] := List.cons_ne_nil name []
  have hgate : Pipeline.hasAlways
      [.shape { fields := fs ++ Field.constant key c fixed name :: gs }] =
        Pipeline.hasAlways [.shape { fields := fs ++ gs }] := by
    have hset : stepsHaveAlways (Step.ofMoves true ([name].map .field) : Pipeline ω) = false :=
      hasAlways_ofPath _
    simp only [Pipeline.hasAlways, stepsHaveAlways, Step.hasAlways, shapeHasAlways,
      fieldsHaveAlways_append, Field.constant, Field.setting, fieldsHaveAlways,
      stepsHaveAlways_append, opHasAlways, hset, Bool.false_or]
  have hrun : (Branch.setting ([.op (.value (.constant c) fixed) {}] : Pipeline ω) [name]).run v
      (s.withTarget none) = .done (s.supplied c fixed (Path.extractField name v)) :=
    runSteps_constant (s := s.withTarget none) hs halways c fixed name v
  have hassemble := assemble_insert hplain rfl rfl hrun htrace
  rw [Pipeline.start, Pipeline.start, hgate, runSteps_shape, runSteps_shape,
    runShape_value _ (.inl rfl), runShape_value _ (.inl rfl), branches_append, branches_append,
    Field.constant, branches_setting _ _ hname, hassemble]

end

/-- The reverse run of a shape of plain keys is the same with a further plain key for a constant, in
any place, where the constant leaves no trace between the fields around it. -/
theorem run_reverse_constant {voc : Vocabulary ω} {front back : Entries Json}
    (hes : Definition.PlainKeys (front ++ back)) {key name : String}
    (hkey : Path.Spells key name) {d : Json} {c : Value} {fixed : Bool}
    (hd : Definition.Constant d c fixed) {p : Pipeline ω}
    (hp : compile voc (.obj (front ++ back)) = .ok p) :
    ∃ (q : Pipeline ω) (fs gs : List (Field (Step ω))),
      compile voc (.obj (front ++ (key, d) :: back)) = .ok q ∧
      compile voc (.obj front) = .ok [.shape { fields := fs }] ∧
      compile voc (.obj back) = .ok [.shape { fields := gs }] ∧
      ∀ o v, o.direction.flippedBy o.flip = .reverse →
        Traceless (branches fs) (branches gs) v (.ofOptions o)
          ((State.ofOptions o).supplied c fixed (Path.extractField name v)) →
        ∀ w, q.run v o w = p.run v o w ∧ q.runAsync v o w = p.runAsync v o w := by
  obtain ⟨fs, gs, hfs, hgs, rfl, hplain, hq⟩ := Definition.compile_insert hes hkey hd hp
  refine ⟨_, fs, gs, hq, hfs, hgs, fun o v ho htrace w => ?_⟩
  have hstart := start_insert hplain (s := .ofOptions o) ho rfl key htrace
  exact ⟨congrArg (Task.runSync · w) hstart, congrArg (Task.complete · w) hstart⟩

theorem run_reverse_constant_behind :
    ∃ p q : Pipeline Unit,
      compile {} (.obj [("id", .str "key")]) = .ok p ∧
      compile {} (.obj [("id", .str "key"), ("kind", .obj [("$value", .str "entry")])]) = .ok q ∧
      q.run (.map [("id", .int 1), ("kind", .str "entry")]) { direction := .reverse } () =
        p.run (.map [("id", .int 1), ("kind", .str "entry")]) { direction := .reverse } () := by
  have hes : Definition.PlainKeys ([("id", .str "key")] ++ []) := by
    intro b hb
    cases List.mem_singleton.1 hb
    exact ⟨"id", by decide, by decide, by simp [isPathSyntax]⟩
  have hkey : Path.Spells "kind" "kind" := ⟨by decide, by decide, by simp [isPathSyntax]⟩
  have hd : Definition.Constant (.obj [("$value", .str "entry")]) (.str "entry") false :=
    .value (.str "entry")
  have hp : compile {} (.obj ([("id", .str "key")] ++ [])) =
      .ok ([.shape { fields := [Field.setting "id" (Step.ofMoves false [.field "key"]) ["id"]] }] :
        Pipeline Unit) := rfl
  obtain ⟨q, fs, gs, hq, hfs, hgs, hruns⟩ := run_reverse_constant hes hkey hd hp
  refine ⟨_, q, rfl, hq, (hruns _ _ rfl (.covered fun built hbuilt => ?_) ()).1⟩
  cases hfs
  cases (hbuilt : _ = built)
  exact ⟨_, _, rfl⟩

/-- Where nothing else is built the constant is the result, and a constant map is merged into the
result. -/
theorem run_reverse_constant_alone :
    ∃ p q m : Pipeline Unit,
      compile {} (.obj [("id", .str "key")]) = .ok p ∧
      compile {} (.obj [("id", .str "key"), ("kind", .obj [("$value", .str "entry")])]) = .ok q ∧
      compile {} (.obj [("id", .str "key"), ("meta", .obj [("$value",
        .obj [("a", .int 1)])])]) = .ok m ∧
      p.run (.map [("kind", .str "entry")]) { direction := .reverse } () = (.ok (.map []), ()) ∧
      q.run (.map [("kind", .str "entry")]) { direction := .reverse } () =
        (.ok (.str "entry"), ()) ∧
      p.run (.map [("id", .int 1), ("meta", .map [])]) { direction := .reverse } () =
        (.ok (.map [("key", .int 1)]), ()) ∧
      m.run (.map [("id", .int 1), ("meta", .map [])]) { direction := .reverse } () =
        (.ok (.map [("key", .int 1), ("a", .int 1)]), ()) ∧
      q.run (.map [("kind", .str "entry")]) { direction := .reverse } () ≠
        p.run (.map [("kind", .str "entry")]) { direction := .reverse } () := by
  refine ⟨_, _, _, rfl, rfl, rfl, rfl, rfl, rfl, rfl, ?_⟩
  change ((.ok (.str "entry"), ()) : Except Fault Value × Unit) ≠ (.ok (.map []), ())
  simp

end Reshape
