import Reshape.Proofs.Definition.Outline
import Reshape.Proofs.Path.Keys
import Reshape.Proofs.Path.Names
import Reshape.Proofs.Value.Hereditary

/-!
# Joining and splitting at names

A concatenation of names joins, in a forward run, the items of the entries under these names. In a
reverse run it writes the whole sequence under the first name and an empty one under each other
name. Each of these writes goes on top of the whole target, and the results are merged, so an entry
that the target has under a name comes back with the write for the next one (`child_split`). The
items are read back where the target has no such entries (`run_concat_reverse_forward`); the last
name has no write behind it, so what the target has there does not matter.
-/

namespace Reshape

variable {ω : Type}

/-! ### Entries of merged maps -/

namespace Value

/-- Merging maps merges what stands under each name. -/
theorem child_deepMerge {base inc : Value} (hbase : base.isMap = true) (hinc : inc.isMap = true)
    (hdistinct : inc.Distinct) (name : String) :
    (base.deepMerge inc).child (.field name) =
      (base.child (.field name)).deepMerge (inc.child (.field name)) := by
  obtain ⟨es, rfl⟩ := exists_entries hbase
  obtain ⟨inc, rfl⟩ := exists_entries hinc
  simp only [deepMerge, child, get?_deepMergeEntries hdistinct.nodup]
  rcases Entries.get? inc name with _ | v
  · rfl
  · cases v <;> rcases Entries.get? es name with _ | old <;> simp [mergedEntry, isAbsent, deepMerge]

theorem child_foldl_deepMerge {parts : List Value}
    (hparts : ∀ m ∈ parts, m.isMap = true ∧ m.Distinct) {acc : Value} (hacc : acc.isMap = true)
    (name : String) :
    (parts.foldl deepMerge acc).child (.field name) =
      (parts.map (child · (.field name))).foldl deepMerge (acc.child (.field name)) := by
  induction parts generalizing acc with
  | nil => rfl
  | cons m rest ih =>
    obtain ⟨⟨hm, hdistinct⟩, hrest⟩ := List.forall_mem_cons.1 hparts
    rw [List.foldl_cons, ih hrest (isMap_deepMerge hacc hm), child_deepMerge hacc hm hdistinct]
    rfl

theorem foldl_deepMerge_eq {parts : List Value} {acc : Value}
    (h : ∀ v ∈ parts, acc.deepMerge v = acc) : parts.foldl deepMerge acc = acc := by
  induction parts with
  | nil => rfl
  | cons v rest ih =>
    obtain ⟨hv, hrest⟩ := List.forall_mem_cons.1 h
    rw [List.foldl_cons, hv, ih hrest]

theorem isMap_put_field (t : Value) (name : String) (v : Value) :
    (t.put (.field name) v).isMap = true := by
  cases t <;> rfl

theorem distinct_put_field {t v : Value} (ht : t.Distinct) (hv : v.Distinct)
    (hpresent : v.isAbsent = false) (name : String) : (t.put (.field name) v).Distinct := by
  cases t with
  | map es => exact hereditary_distinct.insert ht hv hpresent name
  | _ => exact hereditary_distinct.insert hereditary_distinct.empty hv hpresent name

theorem child_put_field (t v : Value) (name other : String) :
    (t.put (.field name) v).child (.field other) =
      if other = name then v else t.child (.field other) := by
  split
  · rename_i h
    rw [h, child_put]
  · rename_i h
    cases t <;> simp [put, child, Entries.get?_insert_of_ne _ _ h, Entries.get?, Ne.symm h]

end Value

/-! ### Blank values -/

namespace Nonvalues

/-- The value has no items but nonvalues. -/
def Blank (ns : Nonvalues) (v : Value) : Prop :=
  ∀ x ∈ v.toItems, ns.contains x = true

namespace Blank

variable {ns : Nonvalues}

theorem absent (ns : Nonvalues) : ns.Blank .absent := by
  simp [Blank, Value.toItems]

theorem empty (ns : Nonvalues) : ns.Blank (.seq []) := by
  simp [Blank, Value.toItems]

theorem filter_eq_nil {v : Value} (h : ns.Blank v) : v.toItems.filter (!ns.contains ·) = [] := by
  simpa [List.filter_eq_nil_iff, Blank] using h

/-- Merging keeps values blank, for a map is not. -/
theorem deepMerge (hns : ns.Scalar) {base inc : Value} (hbase : ns.Blank base)
    (hinc : ns.Blank inc) : ns.Blank (base.deepMerge inc) := by
  cases inc with
  | absent => exact hbase
  | map es => simpa [hns.contains_map] using hinc (.map es) (List.mem_singleton_self _)
  | _ => exact hinc

theorem foldl_deepMerge (hns : ns.Scalar) {parts : List Value} (hparts : ∀ v ∈ parts, ns.Blank v)
    {acc : Value} (hacc : ns.Blank acc) : ns.Blank (parts.foldl Value.deepMerge acc) := by
  induction parts generalizing acc with
  | nil => exact hacc
  | cons v rest ih =>
    obtain ⟨hv, hrest⟩ := List.forall_mem_cons.1 hparts
    exact ih hrest (hacc.deepMerge hns hv)

end Blank

end Nonvalues

/-! ### Splitting -/

namespace Value

/-- What the writes at the names make of a target `t`: the items go under the first name, and no
items under the others. -/
def splitParts (t : Value) : List String → List Value → List Value
  | [], _ => []
  | name :: rest, items => t.put (.field name) (.seq items) :: splitParts t rest []

def split (t : Value) (names : List String) (items : List Value) : Value :=
  (splitParts t names items).foldl deepMerge .absent

section
variable {t : Value} {items : List Value}

theorem splitParts_nil (t : Value) (names : List String) :
    splitParts t names [] = names.map fun name => t.put (.field name) (.seq []) := by
  induction names with
  | nil => rfl
  | cons name rest ih => rw [splitParts, ih, List.map_cons]

theorem split_cons (t : Value) (first : String) (others : List String) (items : List Value) :
    split t (first :: others) items =
      (others.map fun name => t.put (.field name) (.seq [])).foldl deepMerge
        (t.put (.field first) (.seq items)) := by
  obtain ⟨es, hes⟩ := exists_entries (isMap_put_field t first (.seq items))
  rw [split, splitParts, splitParts_nil, List.foldl_cons, hes]
  rfl

theorem isMap_split (t : Value) (first : String) (others : List String) (items : List Value) :
    (split t (first :: others) items).isMap = true := by
  rw [split_cons]
  refine isMap_foldl (fun m hm => ?_) (isMap_put_field ..)
  obtain ⟨name, -, rfl⟩ := List.mem_map.1 hm
  exact isMap_put_field ..

/-- What stands under a name is merged from what each write leaves there: the write for this name
what it writes, every other one what the target has. -/
theorem child_split (ht : t.Distinct) (first : String) (others : List String) (items : List Value)
    (name : String) : (split t (first :: others) items).child (.field name) =
      (others.map fun other => if name = other then .seq [] else t.child (.field name)).foldl
        deepMerge (if name = first then .seq items else t.child (.field name)) := by
  have hempty : (seq []).Distinct := (everywhere_seq []).2 (by simp)
  have hparts : ∀ m ∈ others.map fun other => t.put (.field other) (.seq []),
      m.isMap = true ∧ m.Distinct := by
    intro m hm
    obtain ⟨other, -, rfl⟩ := List.mem_map.1 hm
    exact ⟨isMap_put_field .., distinct_put_field ht hempty rfl other⟩
  rw [split_cons, child_foldl_deepMerge hparts (isMap_put_field ..), child_put_field, List.map_map]
  simp only [Function.comp_def, child_put_field]

/-- The items are left under the first name if the target has nothing there. -/
theorem child_split_first (ht : t.Distinct) {first : String} {others : List String}
    (hnd : first ∉ others)
    (h : others = [] ∨ t.child (.field first) = .absent) :
    (split t (first :: others) items).child (.field first) = .seq items := by
  rw [child_split ht, if_pos rfl]
  refine foldl_deepMerge_eq fun v hv => ?_
  obtain ⟨other, hother, rfl⟩ := List.mem_map.1 hv
  have hne : first ≠ other := fun e => hnd (e ▸ hother)
  rw [if_neg hne]
  rcases h with rfl | h
  · cases hother
  · rw [h]
    rfl

/-- No items are left under another name if the target has none there, and none in any case under
the last one. -/
theorem blank_child_split {ns : Nonvalues} (hns : ns.Scalar) (ht : t.Distinct) {first : String}
    {others : List String} (hnd : (first :: others).Nodup)
    (h : ∀ name ∈ others.dropLast, ns.Blank (t.child (.field name))) {name : String}
    (hname : name ∈ others) :
    ns.Blank ((split t (first :: others) items).child (.field name)) := by
  obtain ⟨hfirst, -⟩ := List.nodup_cons.1 hnd
  have hne : name ≠ first := fun e => hfirst (e ▸ hname)
  rw [child_split ht, if_neg hne]
  obtain ⟨front, last, rfl⟩ :=
    (List.eq_nil_or_concat others).resolve_left (List.ne_nil_of_mem hname)
  rw [List.concat_eq_append] at h hname ⊢
  rw [List.dropLast_concat] at h
  by_cases hlast : name = last
  · subst hlast
    rw [List.map_append, List.foldl_append, List.map_singleton, List.foldl_cons, if_pos rfl]
    exact Nonvalues.Blank.empty ns
  · have hfront : name ∈ front := by simpa [hlast] using hname
    refine Nonvalues.Blank.foldl_deepMerge hns (fun v hv => ?_) (h name hfront)
    obtain ⟨other, -, rfl⟩ := List.mem_map.1 hv
    split
    · exact Nonvalues.Blank.empty ns
    · exact h name hfront

/-- All in all the items are left. -/
theorem items_split {ns : Nonvalues} (hns : ns.Scalar) (ht : t.Distinct) {first : String}
    {others : List String} (hnd : (first :: others).Nodup)
    (hfirst : others = [] ∨ t.child (.field first) = .absent)
    (hothers : ∀ name ∈ others.dropLast, ns.Blank (t.child (.field name)))
    (hitems : ∀ x ∈ items, ns.contains x = false) :
    ((first :: others).flatMap fun name =>
      ((split t (first :: others) items).child (.field name)).toItems.filter
        (!ns.contains ·)) = items := by
  have hrest : (others.flatMap fun name =>
      ((split t (first :: others) items).child (.field name)).toItems.filter
        (!ns.contains ·)) = [] :=
    List.flatMap_eq_nil_iff.2 fun _ hname =>
      (blank_child_split hns ht hnd hothers hname).filter_eq_nil
  rw [List.flatMap_cons, hrest, List.append_nil,
    child_split_first ht (List.nodup_cons.1 hnd).1 hfirst]
  simpa [toItems] using hitems

end

end Value

/-! ### Compiling -/

namespace Definition

/-- A concatenation of texts that spell names. -/
theorem compile_concat (voc : Vocabulary ω) {texts names : List String}
    (h : List.Forall₂ Path.Spells texts names) :
    compile voc (.obj [("$concat", .arr (texts.map .str))]) =
      .ok [.op (.concat (names.map fun name => Step.ofMoves false [.field name])) {}] := by
  have hpipelines : pipelines voc (namedPipeline voc voc.registry.pipelines) (texts.map .str) =
      .ok (names.map fun name => Step.ofMoves false [.field name]) := by
    induction h with
    | nil => rfl
    | cons hspells _ ih =>
      rw [List.map_cons, pipelines, ih, steps, hspells.tokenize]
      rfl
  have hmarker : marker? [("$concat", Json.arr (texts.map .str))] = some .concat := by rfl
  have hiterate : flag [("$concat", Json.arr (texts.map .str))] "$iterate" = false := by rfl
  have honly : restriction voc [("$concat", Json.arr (texts.map .str))] = none := by rfl
  rw [compile, steps]
  simp only [hmarker, hiterate, honly, Marker.key, pipelinesAt, if_true, Option.getD_some,
    hpipelines]
  rfl

end Definition

/-! ### Running -/

section
variable {s : State} (names : List String)

/-- The runs of the names one by one. -/
def nameRunners : List (Runner ω) :=
  names.map fun name => Pipeline.runSteps (Step.ofMoves false [.field name])

theorem splitItems_names (hs : s.effective = .reverse) (hns : s.nonvalues.Scalar) (acc : Value)
    (items : List Value) :
    Op.splitItems (nameRunners names : List (Runner ω)) acc (.seq items) s =
      .done (((s.target.getD .absent).splitParts names items).foldl Value.deepMerge acc) := by
  induction names generalizing acc items with
  | nil => rfl
  | cons name rest ih =>
    have hbuild : false ≠ s.isReverse := by simp [State.isReverse, hs, Direction.isReverse]
    have hput : Path.construct s.nonvalues s.context s.target (.seq items) [.field name] =
        (s.target.getD .absent).put (.field name) (.seq items) := by
      rw [Path.construct_cons _ _ _ (by simp)]
      exact Path.constructMove_key (k := .field name) (hns.contains_seq items) s.context s.target
    simp only [nameRunners, List.map_cons, Op.splitItems, runSteps_construct hbuild, hput,
      Task.bind_def, Task.done_bind] at ih ⊢
    exact ih _ []

theorem joinItems_names (hs : s.effective = .forward) {m : Value} (hm : m.isMap = true) :
    Op.joinItems (nameRunners names : List (Runner ω)) m s =
      .done (names.flatMap fun name =>
        (m.child (.field name)).toItems.filter (!s.nonvalues.contains ·)) := by
  have hseq : m.isSeq = false := by
    obtain ⟨es, rfl⟩ := Value.exists_entries hm
    rfl
  have hread : false = s.isReverse := by simp [State.isReverse, hs, Direction.isReverse]
  induction names with
  | nil => rfl
  | cons name rest ih =>
    have hchild : (Path.extract s.nonvalues [.field name] m s.context).1 =
        m.child (.field name) := Path.extractField_child hseq name
    simp only [nameRunners] at ih
    simp only [nameRunners, List.map_cons, Op.joinItems, runSteps_extract hread, hchild,
      Task.bind_def, Task.done_bind, ih, List.flatMap_cons]
    rfl

end

section
variable {o : Options} (names : List String)

theorem start_concat_reverse (ho : o.direction.flippedBy o.flip = .reverse)
    (hns : o.nonvalues.Scalar) (items : List Value) :
    Pipeline.start [.op (.concat (names.map fun name => Step.ofMoves false [.field name])) {}]
        (.seq items) (.ofOptions o) =
      (.done ((o.target.getD .absent).split names items) : Task ω Value) := by
  have hv : (State.ofOptions o).isNonvalue (.seq items) = false := hns.contains_seq items
  have hs : (State.ofOptions o).effective = .reverse := ho
  have hrev : (State.ofOptions o).isReverse = true := by
    simp [State.isReverse, hs, Direction.isReverse]
  have hsplit := splitItems_names (ω := ω) names hs hns .absent items
  rw [start_op hv, runOp, runOp.perItem, if_neg Bool.false_ne_true, runners_eq_map, List.map_map,
    Op.runConcat, if_pos hrev]
  exact hsplit

theorem start_concat_forward (ho : o.direction.flippedBy o.flip = .forward)
    (hns : o.nonvalues.Scalar) {m : Value} (hm : m.isMap = true) :
    Pipeline.start [.op (.concat (names.map fun name => Step.ofMoves false [.field name])) {}]
        m (.ofOptions o) =
      (.done (.seq (names.flatMap fun name =>
        (m.child (.field name)).toItems.filter (!o.nonvalues.contains ·))) : Task ω Value) := by
  have hv : (State.ofOptions o).isNonvalue m = false := hns.contains_of_isMap hm
  have hs : (State.ofOptions o).effective = .forward := ho
  have hrev : (State.ofOptions o).isReverse = false := by
    simp [State.isReverse, hs, Direction.isReverse]
  have hjoin := joinItems_names (ω := ω) names hs hm
  rw [start_op hv, runOp, runOp.perItem, if_neg Bool.false_ne_true, runners_eq_map, List.map_map,
    Op.runConcat, hrev, if_neg Bool.false_ne_true]
  exact congrArg (Task.map Value.seq) hjoin

end

/-- The forward run of a concatenation of names gives back the sequence that the reverse run was
given, where the target has nothing else under the first name and no items under the names between
it and the last. A single name is free of these conditions. -/
theorem run_concat_reverse_forward (voc : Vocabulary ω) {texts : List String} {first : String}
    {others : List String} (htexts : List.Forall₂ Path.Spells texts (first :: others))
    (hnd : (first :: others).Nodup) :
    ∃ p : Pipeline ω, compile voc (.obj [("$concat", .arr (texts.map .str))]) = .ok p ∧
      ∀ o : Options, o.direction.flippedBy o.flip = .reverse → o.nonvalues.Scalar →
        (∀ t ∈ o.target, t.Distinct) →
        (others = [] ∨ ∀ t ∈ o.target, t.child (.field first) = .absent) →
        (∀ name ∈ others.dropLast, ∀ t ∈ o.target, o.nonvalues.Blank (t.child (.field name))) →
        ∀ items : List Value, (∀ x ∈ items, o.nonvalues.contains x = false) →
        ∃ built, ∀ w,
          (p.run (.seq items) o w = (.ok built, w) ∧ p.runAsync (.seq items) o w = (.ok built, w)) ∧
          ∀ o' : Options, o'.direction.flippedBy o'.flip = .forward → o'.nonvalues = o.nonvalues →
            p.run built o' w = (.ok (.seq items), w) ∧
            p.runAsync built o' w = (.ok (.seq items), w) := by
  refine ⟨_, Definition.compile_concat voc htexts,
    fun o ho hns ht hfirst hothers items hitems => ?_⟩
  have hdistinct : (o.target.getD .absent).Distinct := Value.hereditary_distinct.getD ht
  have hleft : others = [] ∨ (o.target.getD .absent).child (.field first) = .absent := by
    cases htarget : o.target with
    | none => exact .inr rfl
    | some t => exact hfirst.imp_right fun h => h t htarget
  have hblank : ∀ name ∈ others.dropLast,
      o.nonvalues.Blank ((o.target.getD .absent).child (.field name)) := by
    intro name hname
    cases htarget : o.target with
    | none => exact Nonvalues.Blank.absent o.nonvalues
    | some t => exact hothers name hname t htarget
  have hitems' := Value.items_split hns hdistinct hnd hleft hblank hitems
  refine ⟨(o.target.getD .absent).split (first :: others) items,
    fun w => ⟨?_, fun o' ho' hns' => ?_⟩⟩
  · have hstart := start_concat_reverse (ω := ω) (first :: others) ho hns items
    exact ⟨congrArg (Task.runSync · w) hstart, congrArg (Task.complete · w) hstart⟩
  · have hstart := start_concat_forward (ω := ω) (first :: others) ho' (hns' ▸ hns)
      (Value.isMap_split (o.target.getD .absent) first others items)
    rw [hns', hitems'] at hstart
    exact ⟨congrArg (Task.runSync · w) hstart, congrArg (Task.complete · w) hstart⟩

theorem run_concat_reverse_forward_kept :
    ∃ p : Pipeline Unit, compile {} (.obj [("$concat", .arr [.str "a", .str " b"])]) = .ok p ∧
      ∃ built,
        p.run (.seq [.int 1])
          { direction := .reverse, target :=
            some (.map [("c", .null), ("b", .seq [.int 9])]) } () = (.ok built, ()) ∧
        p.run built {} () = (.ok (.seq [.int 1]), ()) := by
  have htexts : List.Forall₂ Path.Spells ["a", " b"] ["a", "b"] :=
    .cons ⟨by decide, by decide, by simp [isPathSyntax]⟩
      (.cons ⟨by decide, by decide, by simp [isPathSyntax]⟩ .nil)
  obtain ⟨p, hp, hruns⟩ := run_concat_reverse_forward {} htexts (by decide)
  obtain ⟨built, hbuilt⟩ := hruns
    { direction := .reverse, target := some (.map [("c", .null), ("b", .seq [.int 9])]) } rfl
    (by decide) (fun t ht => by cases ht; decide) (.inr fun t ht => by cases ht; rfl) (by simp)
    [.int 1] (fun x hx => by cases List.mem_singleton.1 hx; rfl)
  obtain ⟨⟨hreverse, -⟩, hforward⟩ := hbuilt ()
  exact ⟨p, hp, built, hreverse, (hforward {} rfl rfl).1⟩

/-- What the target has under the first name comes back with the write for the second, in place of
the items. -/
theorem run_concat_reverse_forward_stale :
    ∃ p : Pipeline Unit, compile {} (.obj [("$concat", .arr [.str "a", .str "b"])]) = .ok p ∧
      p.run (.seq [.int 1])
          { direction := .reverse, target := some (.map [("a", .seq [.int 9])]) } () =
        (.ok (.map [("a", .seq [.int 9]), ("b", .seq [])]), ()) ∧
      p.run (.map [("a", .seq [.int 9]), ("b", .seq [])]) {} () = (.ok (.seq [.int 9]), ()) ∧
      p.run (.map [("a", .seq [.int 9]), ("b", .seq [])]) {} () ≠ (.ok (.seq [.int 1]), ()) := by
  refine ⟨_, rfl, rfl, rfl, ?_⟩
  change ((.ok (.seq [.int 9]), ()) : Except Fault Value × Unit) ≠ (.ok (.seq [.int 1]), ())
  simp

end Reshape
