import Reshape.Proofs.Path.Keys

/-!
# Reading back what was built

A forward run along a path finds what a reverse run along it built, on top of any target
(`run_forward_reverse`). The path may go down keys and then through sequences, where a mark in front
of a name binds it in every item. Building starts from the last step and reading from the first, so
both inductions peel off the outermost step, with an arbitrary target below it.
-/

namespace Reshape

namespace Path

/-- Names behind sequence marks, and a closing mark if there is to be one. -/
def marked (closing : Bool) : List String → List Move
  | [] => if closing then [.each] else []
  | name :: rest => .each :: .field name :: marked closing rest

/-- Items that a path of marks keeps: none of them is a nonvalue, and none a sequence that a closing
mark would flatten. -/
def Keeps (ns : Nonvalues) (closing : Bool) (items : List Value) : Prop :=
  ∀ x ∈ items, ns.contains x = false ∧ (closing = true → x.isSeq = false)

variable {ns : Nonvalues}

/-- A sequence of present items that are no sequences is left as it is. -/
theorem extractEach_seq {items : List Value} (h : Keeps ns true items) (afterMissing : Bool) :
    extractEach ns afterMissing (.seq items) = .seq items := by
  have hflat : items.flatMap Value.toItems = items := by
    induction items with
    | nil => rfl
    | cons x rest ih =>
      have hx : x.toItems = [x] := by
        have := (h x List.mem_cons_self).2 rfl
        cases x <;> simp_all [Value.toItems, Value.isSeq]
      rw [List.flatMap_cons, hx, ih fun y hy => h y (List.mem_cons_of_mem _ hy)]
      rfl
  have hkeep : items.filter (!ns.contains ·) = items :=
    List.filter_eq_self.2 fun x hx => by simp [(h x hx).1]
  rw [extractEach, hflat, hkeep]

theorem extractFieldItems_eq_map (name : String) (items : List Value) :
    extractFieldItems name items = items.map (extractField name) := by
  induction items with
  | nil => rfl
  | cons x rest ih => simp [extractFieldItems, ih]

/-- A present value is bound in a map, where it is found. -/
theorem bindField_present {x : Value} (hx : ns.contains x = false) (name : String)
    (target : Option Value) :
    ∃ es, bindField ns name target x = .map es ∧ extractField name (.map es) = x := by
  simp only [bindField, hx]
  rcases target with _ | ⟨_ | _ | _⟩ <;>
    exact ⟨_, rfl, by simp [extractField, Entries.get?]⟩

/-- A name behind a mark is bound in a map around each present item, and reading it item by item
gives the items back. -/
theorem constructField_each {items : List Value} (hseq : ns.contains (.seq items) = false)
    (h : ∀ x ∈ items, ns.contains x = false) (name : String) (target : Option Value) :
    ∃ outer, constructField ns name true target (.seq items) = .seq outer ∧
      (∀ x ∈ outer, x.isMap = true) ∧ extractFieldItems name outer = items := by
  simp only [constructField, hseq]
  refine ⟨_, rfl, fun x hx => ?_, ?_⟩
  · obtain ⟨i, hi, rfl⟩ := List.mem_mapIdx.1 hx
    obtain ⟨es, hes, -⟩ := bindField_present (h items[i] (List.getElem_mem hi)) name
      ((target.bind Value.items?).getD [])[i]?
    rw [hes]
    rfl
  · rw [extractFieldItems_eq_map]
    refine List.ext_getElem (by simp) fun i hi hi' => ?_
    obtain ⟨es, hes, hread⟩ := bindField_present (h items[i] (List.getElem_mem hi')) name
      ((target.bind Value.items?).getD [])[i]?
    simp only [List.getElem_map, List.getElem_mapIdx, hes, hread]

theorem keeps_of_isMap (hns : ns.Scalar) {items : List Value} (h : ∀ x ∈ items, x.isMap = true) :
    Keeps ns true items := by
  intro x hx
  have := h x hx
  cases x <;> simp_all [Value.isMap, Value.isSeq, hns.contains_map]

theorem constructEach_seq (hns : ns.Scalar) (items : List Value) :
    constructEach ns (.seq items) = .seq items := by
  simp [constructEach, hns.contains_seq]

theorem construct_closing (hns : ns.Scalar) (c : Context) (target : Option Value) (closing : Bool)
    (items : List Value) :
    construct ns c target (.seq items) (marked closing []) = .seq items := by
  cases closing
  · rfl
  · exact constructEach_seq hns items

/-- Below marks stands a sequence of present items. -/
theorem construct_marked (hns : ns.Scalar) (c : Context) {closing : Bool} {items : List Value}
    (h : Keeps ns closing items) (names : List String) (target : Option Value) :
    ∃ inner, construct ns c target (.seq items) (marked closing names) = .seq inner ∧
      ∀ x ∈ inner, ns.contains x = false := by
  induction names generalizing target with
  | nil => exact ⟨items, construct_closing hns c target closing items, fun x hx => (h x hx).1⟩
  | cons name names ih =>
    obtain ⟨inner, hinner, hpresent⟩ := ih (target.bind (Move.navigate · (.field name)))
    obtain ⟨outer, houter, hmaps, -⟩ := constructField_each (hns.contains_seq inner) hpresent name
      target
    refine ⟨outer, ?_, fun x hx => (keeps_of_isMap hns hmaps x hx).1⟩
    rw [marked, construct_each_field, hinner, houter, constructEach_seq hns]

/-- Behind the first mark stand maps, and their name leads to what is built below it. -/
theorem construct_marked_cons (hns : ns.Scalar) (c : Context) {closing : Bool} {items : List Value}
    (h : Keeps ns closing items) (name : String) (names : List String) (target : Option Value) :
    ∃ outer, construct ns c target (.seq items) (marked closing (name :: names)) = .seq outer ∧
      Keeps ns true outer ∧
      extractField name (.seq outer) = construct ns c (target.bind (Move.navigate · (.field name)))
        (.seq items) (marked closing names) := by
  obtain ⟨inner, hinner, hpresent⟩ := construct_marked hns c h names
    (target.bind (Move.navigate · (.field name)))
  obtain ⟨outer, houter, hmaps, hread⟩ := constructField_each (hns.contains_seq inner) hpresent name
    target
  refine ⟨outer, ?_, keeps_of_isMap hns hmaps, ?_⟩
  · rw [marked, construct_each_field, hinner, houter, constructEach_seq hns]
  · rw [hinner, extractField, hread]

/-- Reading through marks gives the items that they were built around. -/
theorem read_marked (hns : ns.Scalar) (c : Context) {closing : Bool} {items : List Value}
    (h : Keeps ns closing items) (names : List String) (target : Option Value) (r : Reading)
    (hr : r.value = construct ns c target (.seq items) (marked closing names)) :
    ((marked closing names).foldl (Reading.step ns) r).value = .seq items := by
  induction names generalizing target r with
  | nil =>
    rw [construct_closing hns] at hr
    cases closing with
    | false => exact hr
    | true =>
      change extractEach ns r.missing r.value = .seq items
      rw [hr, extractEach_seq h]
  | cons name names ih =>
    obtain ⟨outer, hbuilt, hkeeps, hread⟩ := construct_marked_cons hns c h name names target
    rw [hbuilt] at hr
    refine ih (target.bind (Move.navigate · (.field name))) _ ?_
    change extractField name (extractEach ns r.missing r.value) = _
    rw [hr, extractEach_seq hkeeps, hread]

/-- Around a present value, keys build a present value. -/
theorem construct_keys_present (hns : ns.Scalar) (c : Context) {v : Value}
    (hv : ns.contains v = false) (front : List Key) (target : Option Value) :
    ns.contains (construct ns c target v (front.map Key.move)) = false := by
  induction front generalizing target with
  | nil => exact hv
  | cons k front ih =>
    rw [List.map_cons, construct_cons _ _ _ k.move_ne_each, constructMove_key (ih _)]
    exact hns.contains_put _ k _

/-- Reading down keys arrives at what was built below them. -/
theorem read_keys (hns : ns.Scalar) (c : Context) {v : Value} (hv : ns.contains v = false)
    (front : List Key) (target : Option Value) (r : Reading)
    (hr : r.value = construct ns c target v (front.map Key.move)) :
    ((front.map Key.move).foldl (Reading.step ns) r).value = v := by
  induction front generalizing target r with
  | nil => exact hr
  | cons k front ih =>
    rw [List.map_cons, construct_cons _ _ _ k.move_ne_each,
      constructMove_key (construct_keys_present hns c hv front _)] at hr
    exact ih _ _ (step_key_put hr)

theorem getLast?_keys (front : List Key) : (front.map Key.move).getLast? ≠ some .each := by
  rw [List.getLast?_map]
  cases front.getLast? with
  | none => simp
  | some k => simpa using k.move_ne_each

end Path

/-- A forward run along a path finds what a reverse run along it built from a present value, on top
of any target. Where the path has a mark, the value is a sequence of present items, and of no
sequences if the path ends in a mark. -/
theorem run_forward_reverse {ω : Type} {ns : Nonvalues} (hns : ns.Scalar) (front : List Key)
    (names : List String) (closing : Bool) {v : Value} (hv : ns.contains v = false)
    (hitems : names ≠ [] ∨ closing = true → ∃ items, v = .seq items ∧ Path.Keeps ns closing items)
    (target : Option Value) :
    ∃ built, ∀ w : ω,
      Pipeline.run (Step.ofMoves false (front.map Key.move ++ Path.marked closing names)) v
          { direction := .reverse, nonvalues := ns, target } w = (.ok built, w) ∧
      Pipeline.run (Step.ofMoves false (front.map Key.move ++ Path.marked closing names)) built
          { nonvalues := ns } w = (.ok v, w) := by
  -- What is built below the keys is present, and the marks lead from it to `v`.
  have hbelow (t : Option Value) :
      ns.contains (Path.construct ns [] t v (Path.marked closing names)) = false ∧
      ∀ r : Path.Reading, r.value = Path.construct ns [] t v (Path.marked closing names) →
        ((Path.marked closing names).foldl (Path.Reading.step ns) r).value = v := by
    by_cases hmark : names ≠ [] ∨ closing = true
    · obtain ⟨items, rfl, hkeeps⟩ := hitems hmark
      obtain ⟨inner, hinner, -⟩ := Path.construct_marked hns [] hkeeps names t
      exact ⟨hinner ▸ hns.contains_seq inner,
        fun r hr => Path.read_marked hns [] hkeeps names t r hr⟩
    · obtain ⟨rfl, rfl⟩ : names = [] ∧ closing = false := by simpa using hmark
      exact ⟨hv, fun r hr => hr⟩
  have hsplit := Path.construct_append ns [] v (Path.getLast?_keys front) target
    (Path.marked closing names)
  obtain ⟨hpresent, hread⟩ := hbelow (target.bind (Path.navigate · (front.map Key.move)))
  refine ⟨_, fun w => ⟨run_reverse hv target _ w, ?_⟩⟩
  rw [hsplit, run_forward (Path.construct_keys_present hns [] hpresent front target), Path.extract,
    List.foldl_append]
  exact congrArg (fun u => (Except.ok u, w))
    (hread _ (Path.read_keys hns [] hpresent front target _ rfl))

theorem run_forward_reverse_marked :
    ∃ built, ∀ w : Unit,
      Pipeline.run (Step.ofMoves false ([Key.field "list", .slot 2].map Key.move ++
            Path.marked true ["id"])) (.seq [.str "a", .map []])
          { direction := .reverse, nonvalues := { added := [.null] },
            target := some (.map [("list", .str "x")]) } w = (.ok built, w) ∧
      Pipeline.run (Step.ofMoves false ([Key.field "list", .slot 2].map Key.move ++
            Path.marked true ["id"])) built
          { nonvalues := { added := [.null] } } w = (.ok (.seq [.str "a", .map []]), w) := by
  have hkeeps : Path.Keeps { added := [.null] } true [.str "a", .map []] := by
    unfold Path.Keeps
    decide
  exact run_forward_reverse (by decide) _ _ _ (by decide) (fun _ => ⟨_, rfl, hkeeps⟩) _

end Reshape
