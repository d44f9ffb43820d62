import Reshape.Proofs.Path.Keys

/-!
# Building is updating

A reverse run along keys builds from the inside out and looks the target up anew at every level. Its
result is the update of the target at the path (`construct_eq_update`), by recursion from the
outside in, as long as no name of the path meets a sequence: everything beside the path is kept, in
its order, and writing back what is there changes nothing (`run_reverse_eq_update`).
-/

namespace Reshape

namespace Value

/-- The value with `v` written at the end of a path. -/
def update : Value → List Key → Value → Value
  | _, [], v => v
  | t, k :: rest, v => t.put k (update (t.child k) rest v)

/-- No name of the path meets a sequence on the way down. -/
def Direct : Value → List Key → Prop
  | _, [] => True
  | t, k :: rest => (k.isField → t.isSeq = false) ∧ Direct (t.child k) rest

/-- `b` has what `a` has beside the key `k`, in the same order. A name that is new comes last. Where
`a` is no container for the key, nothing of it is left to keep. -/
def AgreesBeside (k : Key) (a b : Value) : Prop :=
  match a, k with
  | map es, .field name => ∃ es', b = map es' ∧
      Entries.keys es' = (if name ∈ Entries.keys es then Entries.keys es
        else Entries.keys es ++ [name]) ∧
      ∀ other, other ≠ name → Entries.get? es' other = Entries.get? es other
  | seq items, .slot n => ∃ items', b = seq items' ∧
      items'.length = max items.length (n + 1) ∧
      ∀ i, i ≠ n.val → items'[i]?.getD absent = items[i]?.getD absent
  | _, _ => True

theorem agreesBeside_put (t : Value) (k : Key) (v : Value) : AgreesBeside k t (t.put k v) := by
  cases k with
  | field name =>
    cases t with
    | map es =>
      exact ⟨_, rfl, Entries.keys_insert es name v,
        fun _ h => Entries.get?_insert_of_ne es v h⟩
    | _ => trivial
  | slot n =>
    cases t with
    | seq items =>
      refine ⟨_, rfl, by rw [List.length_set, length_padded], fun i hi => ?_⟩
      rw [List.getElem?_set_ne (Ne.symm hi), getElem?_padded]
    | _ => trivial

/-- Down to a place on the path, the update is the update of what stood there. -/
theorem follow_update (t : Value) (front rest : List Key) (v : Value) :
    (t.update (front ++ rest) v).follow front = (t.follow front).update rest v := by
  induction front generalizing t with
  | nil => rfl
  | cons k front ih => rw [List.cons_append, update, follow_cons, child_put, ih, follow_cons]

/-- Whatever stands beside the path is kept. -/
theorem agreesBeside_update (t : Value) (front : List Key) (k : Key) (rest : List Key) (v : Value) :
    AgreesBeside k (t.follow front) ((t.update (front ++ k :: rest) v).follow front) := by
  rw [follow_update]
  exact agreesBeside_put _ k _

/-- Writing back what is there changes nothing. -/
theorem update_follow {t : Value} {p : List Key} (h : t.follow p ≠ absent) :
    t.update p (t.follow p) = t := by
  induction p generalizing t with
  | nil => rfl
  | cons k rest ih =>
    have hchild : t.child k ≠ absent := by
      intro hnone
      simp [hnone] at h
    rw [follow_cons] at h
    rw [update, follow_cons, ih h, put_child hchild]

end Value

namespace Path

variable {ns : Nonvalues} {p : List Key}

theorem navigate_key {t : Value} {k : Key} (h : k.isField → t.isSeq = false) :
    ((k.move.navigate t).getD .absent) = t.child k := by
  have hpresent (v : Value) : (Move.navigate.present v).getD .absent = v := by
    cases v <;> rfl
  cases k with
  | field name => exact (hpresent _).trans (extractField_child (h rfl) name)
  | slot n => exact (hpresent _).trans (extractIndex_child t n)

/-- Reading along keys that meet no sequence follows them. -/
theorem extract_follow (p : List Key) (r : Reading) (h : r.value.Direct p) :
    ((p.map Key.move).foldl (Reading.step ns) r).value = r.value.follow p := by
  induction p generalizing r with
  | nil => rfl
  | cons k rest ih =>
    obtain ⟨hk, hrest⟩ := h
    have hstep : (r.step ns k.move).value = r.value.child k := step_key hk
    rw [← hstep] at hrest
    rw [List.map_cons, List.foldl_cons, ih _ hrest, hstep, Value.follow_cons]

/-- Building along keys updates the target. A target that is missing is as good as an absent one. -/
theorem construct_eq_update (hns : ns.Scalar) {v : Value} (hv : ns.contains v = false) (c : Context)
    (p : List Key) (target : Option Value) (h : (target.getD .absent).Direct p) :
    construct ns c target v (p.map Key.move) = (target.getD .absent).update p v ∧
      ns.contains ((target.getD .absent).update p v) = false := by
  induction p generalizing target with
  | nil => exact ⟨rfl, hv⟩
  | cons k rest ih =>
    obtain ⟨hk, hrest⟩ := h
    have hbelow : (target.bind (k.move.navigate ·)).getD .absent =
        (target.getD .absent).child k := by
      cases target with
      | none => simp
      | some t => exact navigate_key hk
    rw [← hbelow] at hrest
    obtain ⟨hbuilt, hvalue⟩ := ih _ hrest
    refine ⟨?_, hns.contains_put _ _ _⟩
    rw [List.map_cons, construct_cons _ _ _ k.move_ne_each, hbuilt, constructMove_key hvalue,
      hbelow, Value.update]

end Path

/-- A reverse run along keys updates the target at the path. Every key and slot beside the path
keeps its value and its order, and a run over the value that a forward run reads from the target
gives the target back. -/
theorem run_reverse_eq_update {ω : Type} {ns : Nonvalues} (hns : ns.Scalar) {v : Value}
    (hv : ns.contains v = false) {p : List Key} {t : Value} (ht : t.Direct p) (w : ω) :
    Pipeline.run (Key.pipeline p) v { direction := .reverse, nonvalues := ns, target := some t } w =
        (.ok (t.update p v), w) ∧
      (∀ front k rest, p = front ++ k :: rest →
        Value.AgreesBeside k (t.follow front) ((t.update p v).follow front)) ∧
      (Pipeline.run (Key.pipeline p) t { nonvalues := ns } w = (.ok v, w) → t.update p v = t) := by
  refine ⟨?_, ?_, ?_⟩
  · rw [Key.pipeline, run_reverse hv, (Path.construct_eq_update hns hv [] p (some t) ht).1]
    rfl
  · rintro front k rest rfl
    exact t.agreesBeside_update front k rest v
  · intro hread
    by_cases hnone : ns.contains t = true
    · -- A nonvalue has nothing to read, but absence is not what was run.
      have hrun : Pipeline.run (Key.pipeline p) t { nonvalues := ns } w = (.ok .absent, w) :=
        run_nonvalue hnone _ w
      rw [hrun] at hread
      cases hread
      simp at hv
    · rw [Bool.not_eq_true] at hnone
      rw [Key.pipeline, run_forward hnone] at hread
      have hfollow : t.follow p = v := by
        have hextract : (Path.extract ns (p.map Key.move) t []).1 = t.follow p :=
          Path.extract_follow p _ ht
        rw [← hextract]
        exact Except.ok.inj (Prod.mk.inj hread).1
      rw [← hfollow]
      refine Value.update_follow fun habsent => ?_
      rw [← hfollow, habsent] at hv
      simp at hv

theorem run_reverse_eq_update_slot :
    Pipeline.run (Key.pipeline [.field "a", .slot 1]) (.str "new")
        { direction := .reverse, nonvalues := { added := [.null] },
          target := some (.map [("b", .null), ("a", .seq [.str "old"]), ("c", .null)]) } () =
      (.ok (.map [("b", .null), ("a", .seq [.str "old", .str "new"]), ("c", .null)]), ()) :=
  have hdirect : Value.Direct (.map [("b", .null), ("a", .seq [.str "old"]), ("c", .null)])
      [.field "a", .slot 1] := by
    simp [Value.Direct, Value.isSeq, Key.isField]
  (run_reverse_eq_update (by decide) (by decide) hdirect ()).1

end Reshape
