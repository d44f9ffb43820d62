import Reshape.Nonvalues
import Reshape.Proofs.Value.Finds

/-!
# Outlines of shapes

The outline of a shape whose fields map paths of names to paths of names, or to shapes of that kind
again. `forward` and `reverse` are what its two runs make of a value. Where no key path leads to
another and no source path does either, each run holds at the paths of one side what it reads at the
paths of the other (`holds_forward_node`, `holds_reverse_node`), and its result depends on nothing
else (`forward_congr`, `reverse_congr`). So each run undoes the other as far as it goes
(`forward_reverse_forward`, `reverse_forward_reverse`).
-/

namespace Reshape

namespace Nonvalues

/-- A value, unless it is a nonvalue. -/
def present (ns : Nonvalues) (v : Value) : Option Value :=
  if ns.contains v then none else some v

theorem present_getD (ns : Nonvalues) (v : Value) :
    ns.present ((ns.present v).getD .absent) = ns.present v := by
  by_cases h : ns.contains v = true
  · simp [present, h]
  · simp [present, h]

end Nonvalues

namespace Value

/-- A value below a path of names, or an empty map if it is a nonvalue. -/
def wrap (ns : Nonvalues) (names : List String) (v : Value) : Value :=
  (ns.present v).elim (.map []) (nest names)

theorem wrap_name (ns : Nonvalues) (name : String) (v : Value) :
    wrap ns [name] v = if ns.contains v then .map [] else .map [(name, v)] := by
  by_cases hv : ns.contains v = true <;> simp [wrap, Nonvalues.present, nest, hv]

/-- The deep merge of maps, from left to right. -/
def mergeAll (parts : List Value) : Value :=
  parts.foldl deepMerge (.map [])

theorem isMap_wrap (ns : Nonvalues) {names : List String} (h : names ≠ []) (v : Value) :
    (wrap ns names v).isMap = true := by
  obtain ⟨name, rest, rfl⟩ := List.exists_cons_of_ne_nil h
  simp only [wrap]
  cases ns.present v <;> rfl

theorem isMap_deepMerge {base inc : Value} (hb : base.isMap = true) (hi : inc.isMap = true) :
    (base.deepMerge inc).isMap = true := by
  cases base <;> cases inc <;> simp_all [isMap, deepMerge]

theorem isMap_foldl {parts : List Value} (h : ∀ m ∈ parts, m.isMap = true) {acc : Value}
    (hacc : acc.isMap = true) : (parts.foldl deepMerge acc).isMap = true := by
  induction parts generalizing acc with
  | nil => exact hacc
  | cons m rest ih =>
    obtain ⟨hm, hrest⟩ := List.forall_mem_cons.1 h
    exact ih hrest (isMap_deepMerge hacc hm)

theorem deepMerge_empty {base : Value} (h : base.isMap = true) :
    base.deepMerge (.map []) = base := by
  cases base <;> simp_all [isMap, deepMerge, deepMergeEntries]

end Value

/-! ### Outlines and their leaves -/

/-- The tree of a shape of plain paths: the fields of a node have a path of names as their key, the
leaves a path of names as their source. -/
inductive Outline where
  | leaf (source : List String)
  | node (fields : List (List String × Outline))

/-- A leaf with the two paths that it connects, both from the root. -/
structure Leaf where
  key : List String
  source : List String

/-- A leaf as it is seen from above `key`. -/
def Leaf.below (key : List String) (l : Leaf) : Leaf :=
  { l with key := key ++ l.key }

namespace Outline

mutual

def leaves : Outline → List Leaf
  | leaf source => [⟨[], source⟩]
  | node fields => fieldLeaves fields

def fieldLeaves : List (List String × Outline) → List Leaf
  | [] => []
  | (key, o) :: rest => o.leaves.map (Leaf.below key) ++ fieldLeaves rest

end

mutual

/-- No path is empty, and no node is without fields. -/
def Proper : Outline → Prop
  | leaf source => source ≠ []
  | node fields => fields ≠ [] ∧ ProperFields fields

def ProperFields : List (List String × Outline) → Prop
  | [] => True
  | (key, o) :: rest => key ≠ [] ∧ o.Proper ∧ ProperFields rest

end

theorem leaves_ne_nil : ∀ {o : Outline}, o.Proper → o.leaves ≠ []
  | leaf source, _ => by simp [leaves]
  | node [], h => absurd rfl h.1
  | node ((key, o) :: rest), h => by
    simp [leaves, fieldLeaves, leaves_ne_nil h.2.2.1]

mutual

theorem source_ne_nil : ∀ {o : Outline}, o.Proper → ∀ l ∈ o.leaves, l.source ≠ []
  | leaf source, h, l, hl => by
    cases List.mem_singleton.1 hl
    exact h
  | node fields, h, l, hl => fieldSource_ne_nil h.2 l hl

theorem fieldSource_ne_nil : ∀ {fields : List (List String × Outline)}, ProperFields fields →
    ∀ l ∈ fieldLeaves fields, l.source ≠ []
  | [], _, l, hl => by simp [fieldLeaves] at hl
  | (key, o) :: rest, h, l, hl => by
    rcases List.mem_append.1 hl with hl | hl
    · obtain ⟨l', hl', rfl⟩ := List.mem_map.1 hl
      exact source_ne_nil h.2.1 l' hl'
    · exact fieldSource_ne_nil h.2.2 l hl

end

theorem fieldKey_ne_nil : ∀ {fields : List (List String × Outline)}, ProperFields fields →
    ∀ l ∈ fieldLeaves fields, l.key ≠ []
  | [], _, l, hl => by simp [fieldLeaves] at hl
  | (key, o) :: rest, h, l, hl => by
    rcases List.mem_append.1 hl with hl | hl
    · obtain ⟨l, -, rfl⟩ := List.mem_map.1 hl
      simp [Leaf.below, h.1]
    · exact fieldKey_ne_nil h.2.2 l hl

/-! ### The two runs -/

section
variable (ns : Nonvalues)

mutual

/-- What a forward run makes of `x`. Every field reads the same `x`. -/
def forward : Outline → Value → Value
  | leaf source, x => x.readNames source
  | node fields, x => Value.mergeAll (forwardFields fields x)

def forwardFields : List (List String × Outline) → Value → List Value
  | [], _ => []
  | (key, o) :: rest, x => Value.wrap ns key (forward o x) :: forwardFields rest x

end

mutual

/-- What a reverse run makes of `u`, the value at the key of the outline. -/
def reverse : Outline → Value → Value
  | leaf source, u => Value.wrap ns source u
  | node fields, u => Value.mergeAll (reverseFields fields u)

def reverseFields : List (List String × Outline) → Value → List Value
  | [], _ => []
  | (key, o) :: rest, u => reverse o (u.readNames key) :: reverseFields rest u

end

mutual

theorem isMap_forwardFields : ∀ {fields : List (List String × Outline)}, ProperFields fields →
    ∀ (x : Value), ∀ m ∈ forwardFields ns fields x, m.isMap = true
  | [], _, _, m, hm => by simp [forwardFields] at hm
  | (key, o) :: rest, h, x, m, hm => by
    rcases List.mem_cons.1 hm with rfl | hm
    · exact Value.isMap_wrap ns h.1 _
    · exact isMap_forwardFields h.2.2 x m hm

theorem isMap_reverse : ∀ {o : Outline}, o.Proper → ∀ u, (o.reverse ns u).isMap = true
  | leaf _, h, u => Value.isMap_wrap ns h u
  | node _, h, u => Value.isMap_foldl (isMap_reverseFields h.2 u) rfl

theorem isMap_reverseFields : ∀ {fields : List (List String × Outline)}, ProperFields fields →
    ∀ (u : Value), ∀ m ∈ reverseFields ns fields u, m.isMap = true
  | [], _, _, m, hm => by simp [reverseFields] at hm
  | (key, o) :: rest, h, u, m, hm => by
    rcases List.mem_cons.1 hm with rfl | hm
    · exact isMap_reverse h.2.1 _
    · exact isMap_reverseFields h.2.2 u m hm

end

end

/-! ### The leaves decide -/

section
variable {ns : Nonvalues}

mutual

/-- A forward run sees of its input only what the sources of the leaves read. -/
theorem forward_congr {x x' : Value} : ∀ (o : Outline),
    (∀ l ∈ o.leaves, ns.present (x.readNames l.source) = ns.present (x'.readNames l.source)) →
      ns.present (o.forward ns x) = ns.present (o.forward ns x')
  | leaf source, h => h _ List.mem_cons_self
  | node fields, h => by
    rw [forward, forwardFields_congr fields h, ← forward]

theorem forwardFields_congr {x x' : Value} : ∀ (fields : List (List String × Outline)),
    (∀ l ∈ fieldLeaves fields,
      ns.present (x.readNames l.source) = ns.present (x'.readNames l.source)) →
      forwardFields ns fields x = forwardFields ns fields x'
  | [], _ => rfl
  | (key, o) :: rest, h => by
    have hfirst := forward_congr o fun l hl =>
      h (l.below key) (List.mem_append_left _ (List.mem_map_of_mem hl))
    have hrest := forwardFields_congr rest fun l hl => h l (List.mem_append_right _ hl)
    rw [forwardFields, forwardFields, hrest, Value.wrap, Value.wrap, hfirst]

end

mutual

/-- A reverse run sees of its input only what the keys of the leaves read. -/
theorem reverse_congr {u u' : Value} : ∀ (o : Outline),
    (∀ l ∈ o.leaves, ns.present (u.readNames l.key) = ns.present (u'.readNames l.key)) →
      o.reverse ns u = o.reverse ns u'
  | leaf source, h => by
    have hleaf : ns.present u = ns.present u' := h _ List.mem_cons_self
    rw [reverse, reverse, Value.wrap, Value.wrap, hleaf]
  | node fields, h => by
    rw [reverse, reverse, reverseFields_congr fields h]

theorem reverseFields_congr {u u' : Value} : ∀ (fields : List (List String × Outline)),
    (∀ l ∈ fieldLeaves fields, ns.present (u.readNames l.key) = ns.present (u'.readNames l.key)) →
      reverseFields ns fields u = reverseFields ns fields u'
  | [], _ => rfl
  | (key, o) :: rest, h => by
    have hfirst : o.reverse ns (u.readNames key) = o.reverse ns (u'.readNames key) :=
      reverse_congr o fun l hl => by
        have hbelow := h (l.below key) (List.mem_append_left _ (List.mem_map_of_mem hl))
        simpa only [Leaf.below, Value.readNames_append] using hbelow
    have hrest := reverseFields_congr rest fun l hl => h l (List.mem_append_right _ hl)
    rw [reverseFields, reverseFields, hrest, hfirst]

end

mutual

theorem reverse_absent : ∀ o : Outline, o.reverse ns .absent = .map []
  | leaf source => by simp [reverse, Value.wrap, Nonvalues.present]
  | node fields => reverseFields_absent fields

theorem reverseFields_absent : ∀ fields : List (List String × Outline),
    Value.mergeAll (reverseFields ns fields .absent) = .map []
  | [] => rfl
  | (key, o) :: rest => by
    rw [reverseFields, Value.readNames_absent, reverse_absent o]
    exact reverseFields_absent rest

end

/-- In reverse, the fields of a shape make nothing of a nonvalue. -/
theorem reverse_nonvalue (hns : ns.Scalar) {fields : List (List String × Outline)}
    (h : ProperFields fields) {u : Value} (hu : ns.contains u = true) :
    (node fields).reverse ns u = .map [] := by
  have hread : ∀ l ∈ fieldLeaves fields, u.readNames l.key = .absent := by
    intro l hl
    obtain ⟨name, names, hkey⟩ := List.exists_cons_of_ne_nil (fieldKey_ne_nil h l hl)
    have hscalar : Path.extractField name u = .absent := by
      cases u with
      | map entries => simp [hns.contains_map] at hu
      | seq items => simp [hns.contains_seq] at hu
      | _ => rfl
    rw [hkey, Value.readNames_cons, hscalar, Value.readNames_absent]
  refine (reverse_congr (node fields) fun l hl => ?_).trans (reverse_absent _)
  rw [hread l hl, Value.readNames_absent]

/-! ### What the runs hold -/

/-- What a forward run reads for each leaf, at its key. -/
def forwardResults (ns : Nonvalues) (x : Value) (ls : List Leaf) :
    List (List String × Option Value) :=
  ls.map fun l => (l.key, ns.present (x.readNames l.source))

/-- What a reverse run reads for each leaf, at its source. -/
def reverseResults (ns : Nonvalues) (u : Value) (ls : List Leaf) :
    List (List String × Option Value) :=
  ls.map fun l => (l.source, ns.present (u.readNames l.key))

theorem holds_nothing : Holds (.map []) [] :=
  .empty (by simp)

theorem holds_wrap {names : List String} (h : names ≠ []) (v : Value) :
    Holds (Value.wrap ns names v) [(names, ns.present v)] := by
  by_cases hv : ns.contains v = true
  · have hempty : Holds (.map []) [(names, none)] := .empty (by simpa using h)
    simpa [Value.wrap, Nonvalues.present, hv] using hempty
  · have habsent : v.isAbsent = false := by
      cases v <;> simp_all [Value.isAbsent]
    simpa [Value.wrap, Nonvalues.present, hv] using
      (Holds.leaf v).nest (by simp) habsent names

theorem wrap_of_isMap (hns : ns.Scalar) {m : Value} (h : m.isMap = true) (names : List String) :
    Value.wrap ns names m = m.nest names := by
  simp [Value.wrap, Nonvalues.present, hns.contains_of_isMap h]

/-- Entries whose paths lead nowhere near one another. -/
abbrev AllApart (results : List (List String × Option Value)) : Prop :=
  results.Pairwise fun e e' => Apart e.1 e'.1

mutual

/-- A forward run, seen from above its key, holds at the key paths what it reads at the sources. -/
theorem holds_wrap_forward (hns : ns.Scalar) (x : Value) {key : List String} (hkey : key ≠ []) :
    ∀ {o : Outline}, o.Proper → AllApart (forwardResults ns x (o.leaves.map (Leaf.below key))) →
      Holds (Value.wrap ns key (o.forward ns x))
        (forwardResults ns x (o.leaves.map (Leaf.below key)))
  | leaf source, _, _ => by
    have hleaf : Holds (Value.wrap ns key (x.readNames source)) [(key, ns.present _)] :=
      holds_wrap hkey _
    simpa [leaves, forwardResults, Leaf.below, forward] using hleaf
  | node fields, h, hapart => by
    have hmap : (forward ns (node fields) x).isMap = true :=
      Value.isMap_foldl (isMap_forwardFields ns h.2 x) rfl
    have hbelow : AllApart (forwardResults ns x (fieldLeaves fields)) := by
      simpa [AllApart, forwardResults, List.pairwise_map, Leaf.below, leaves,
        Apart.append_left] using hapart
    have hholds : Holds (forward ns (node fields) x) (forwardResults ns x (fieldLeaves fields)) :=
      holds_forwardFields hns x h.2 holds_nothing (by simp) (by simpa using hbelow)
    have hne : forwardResults ns x (fieldLeaves fields) ≠ [] := by
      simpa [forwardResults, leaves] using leaves_ne_nil h
    have habsent : (forward ns (node fields) x).isAbsent = false := by
      revert hmap
      cases forward ns (node fields) x <;> simp [Value.isMap, Value.isAbsent]
    rw [wrap_of_isMap hns hmap]
    simpa [forwardResults, leaves, Leaf.below, Function.comp_def] using
      hholds.nest hne habsent key

theorem holds_forwardFields (hns : ns.Scalar) (x : Value) :
    ∀ {fields : List (List String × Outline)}, ProperFields fields →
      ∀ {acc : Value} {done : List (List String × Option Value)}, Holds acc done →
      (∀ e ∈ done, e.1 ≠ []) → AllApart (done ++ forwardResults ns x (fieldLeaves fields)) →
      Holds ((forwardFields ns fields x).foldl Value.deepMerge acc)
        (done ++ forwardResults ns x (fieldLeaves fields))
  | [], _, acc, done, hacc, _, _ => by
    simpa [fieldLeaves, forwardResults, forwardFields] using hacc
  | (key, o) :: rest, h, acc, done, hacc, hne, hapart => by
    have hsplit : forwardResults ns x (fieldLeaves ((key, o) :: rest)) =
        forwardResults ns x (o.leaves.map (Leaf.below key)) ++
          forwardResults ns x (fieldLeaves rest) :=
      List.map_append
    rw [hsplit, ← List.append_assoc] at hapart ⊢
    obtain ⟨hfront, -, -⟩ := List.pairwise_append.1 hapart
    have hfirst := holds_wrap_forward hns x h.1 h.2.1 (List.pairwise_append.1 hfront).2.1
    have hne' : ∀ e ∈ done ++ forwardResults ns x (o.leaves.map (Leaf.below key)), e.1 ≠ [] := by
      intro e he
      rcases List.mem_append.1 he with he | he
      · exact hne e he
      · obtain ⟨l, hl, rfl⟩ := List.mem_map.1 he
        obtain ⟨l', -, rfl⟩ := List.mem_map.1 hl
        simp [Leaf.below, h.1]
    exact holds_forwardFields hns x h.2.2 (hacc.deepMerge hfirst hne' hfront) hne' hapart

end

mutual

/-- A reverse run holds at the source paths what it reads at the keys. -/
theorem holds_reverse (u : Value) :
    ∀ {o : Outline}, o.Proper → AllApart (reverseResults ns u o.leaves) →
      Holds (o.reverse ns u) (reverseResults ns u o.leaves)
  | leaf source, h, _ => holds_wrap h u
  | node fields, h, hapart => by
    simpa [reverse, Value.mergeAll, leaves] using
      holds_reverseFields u h.2 holds_nothing (by simp) (by simpa [leaves] using hapart)

theorem holds_reverseFields (u : Value) :
    ∀ {fields : List (List String × Outline)}, ProperFields fields →
      ∀ {acc : Value} {done : List (List String × Option Value)}, Holds acc done →
      (∀ e ∈ done, e.1 ≠ []) → AllApart (done ++ reverseResults ns u (fieldLeaves fields)) →
      Holds ((reverseFields ns fields u).foldl Value.deepMerge acc)
        (done ++ reverseResults ns u (fieldLeaves fields))
  | [], _, acc, done, hacc, _, _ => by
    simpa [fieldLeaves, reverseResults, reverseFields] using hacc
  | (key, o) :: rest, h, acc, done, hacc, hne, hapart => by
    have hsplit : reverseResults ns u (fieldLeaves ((key, o) :: rest)) =
        reverseResults ns (u.readNames key) o.leaves ++ reverseResults ns u (fieldLeaves rest) := by
      simp [reverseResults, fieldLeaves, Leaf.below, Value.readNames_append]
    rw [hsplit, ← List.append_assoc] at hapart ⊢
    obtain ⟨hfront, -, -⟩ := List.pairwise_append.1 hapart
    have hfirst := holds_reverse (u.readNames key) h.2.1 (List.pairwise_append.1 hfront).2.1
    have hne' : ∀ e ∈ done ++ reverseResults ns (u.readNames key) o.leaves, e.1 ≠ [] := by
      intro e he
      rcases List.mem_append.1 he with he | he
      · exact hne e he
      · obtain ⟨l, hl, rfl⟩ := List.mem_map.1 he
        exact source_ne_nil h.2.1 l hl
    exact holds_reverseFields u h.2.2 (hacc.deepMerge hfirst hne' hfront) hne' hapart

end

/-! ### Round trips -/

/-- The fields of a shape that can be run back and forth: no path is empty, and on neither side does
the path of one leaf lead to that of another. -/
structure Invertible (fields : List (List String × Outline)) : Prop where
  proper : ProperFields fields
  keys : ((fieldLeaves fields).map Leaf.key).Pairwise Apart
  sources : ((fieldLeaves fields).map Leaf.source).Pairwise Apart

variable {fields : List (List String × Outline)}

theorem holds_forward_node (hns : ns.Scalar) (h : Invertible fields) (x : Value) :
    Holds ((node fields).forward ns x) (forwardResults ns x (fieldLeaves fields)) := by
  have hapart : AllApart (forwardResults ns x (fieldLeaves fields)) := by
    simpa [AllApart, forwardResults, List.pairwise_map] using h.keys
  exact holds_forwardFields hns x h.proper holds_nothing (by simp) (by simpa using hapart)

theorem holds_reverse_node (h : Invertible fields) (u : Value) :
    Holds ((node fields).reverse ns u) (reverseResults ns u (fieldLeaves fields)) := by
  have hapart : AllApart (reverseResults ns u (fieldLeaves fields)) := by
    simpa [AllApart, reverseResults, List.pairwise_map] using h.sources
  exact holds_reverseFields u h.proper holds_nothing (by simp) (by simpa using hapart)

/-- What a forward run read at a source, a reverse run reads at the key. -/
theorem present_forward (hns : ns.Scalar) (h : Invertible fields) (x : Value) {l : Leaf}
    (hl : l ∈ fieldLeaves fields) :
    ns.present (((node fields).forward ns x).readNames l.key) =
      ns.present (x.readNames l.source) := by
  have hfinds := (holds_forward_node hns h x).finds _ (List.mem_map_of_mem hl)
  rw [hfinds.readNames, ns.present_getD]

theorem present_reverse (h : Invertible fields) (u : Value) {l : Leaf}
    (hl : l ∈ fieldLeaves fields) :
    ns.present (((node fields).reverse ns u).readNames l.source) =
      ns.present (u.readNames l.key) := by
  have hholds : Holds ((node fields).reverse ns u) _ := holds_reverse_node h u
  have hfinds := hholds.finds _ (List.mem_map_of_mem hl)
  rw [hfinds.readNames, ns.present_getD]

theorem forward_reverse_forward (hns : ns.Scalar) (h : Invertible fields) (x : Value) :
    (node fields).forward ns ((node fields).reverse ns ((node fields).forward ns x)) =
      (node fields).forward ns x := by
  have hread : ∀ l ∈ fieldLeaves fields,
      ns.present (((node fields).reverse ns ((node fields).forward ns x)).readNames l.source) =
        ns.present (x.readNames l.source) := fun l hl => by
    rw [present_reverse h _ hl, present_forward hns h x hl]
  exact congrArg Value.mergeAll (forwardFields_congr fields hread)

theorem reverse_forward_reverse (hns : ns.Scalar) (h : Invertible fields) (u : Value) :
    (node fields).reverse ns ((node fields).forward ns ((node fields).reverse ns u)) =
      (node fields).reverse ns u :=
  reverse_congr (node fields) fun _ hl => by
    rw [present_forward hns h _ hl, present_reverse h u hl]

end

end Outline

end Reshape
