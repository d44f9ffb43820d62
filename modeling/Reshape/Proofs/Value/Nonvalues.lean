import Reshape.Nonvalues
import Reshape.Proofs.Value.Equality

/-!
# Adding nonvalues

A set of nonvalues contains what equals one of its values. Adding a value keeps all that is in the
set and brings in nothing but what equals the value. It brings in all of this if no equal value is
there yet, or if those that are subsume the new one (`contains_insert`). So it does not matter in
which order values are added that subsume each other, such as all values without shared floats
(`contains_ofList`). A value with a shared float may meet one that equals it and does not subsume it
(`exists_not_contains_insert`): it is left out then, and what only it equals is missing.
-/

namespace Reshape

namespace Value

/-- If it equals `x`, then it equals all that `x` equals. -/
def Subsumes (u x : Value) : Prop :=
  u.eqv x = true → ∀ y : Value, x.eqv y = true → u.eqv y = true

theorem Subsumes.refl (u : Value) : u.Subsumes u :=
  fun _ _ hy => hy

theorem subsumes_of_unshared {x : Value} (h : ∀ z ∈ x.floats, Unshared z) (u : Value) :
    u.Subsumes x :=
  fun hux _ hxy => eqv_trans hux hxy h

theorem eq_absent_of_eqv {x : Value} (h : absent.eqv x = true) : x = absent := by
  cases x with
  | absent => rfl
  | _ => cases h

theorem absent_subsumes (x : Value) : absent.Subsumes x := by
  intro h
  cases eq_absent_of_eqv h
  exact fun _ hy => hy

end Value

namespace Nonvalues

variable {ns : Nonvalues} {x y : Value}

theorem contains_eq_true : ns.contains y = true ↔ ∃ u ∈ ns.values, u.eqv y = true :=
  List.any_eq_true

theorem insert_of_contains (h : ns.contains x = true) : ns.insert x = ns :=
  if_pos h

theorem values_insert (h : ns.contains x = false) : (ns.insert x).values = ns.values ++ [x] := by
  rw [insert, h]
  rfl

theorem mem_values_insert {u : Value} (h : u ∈ (ns.insert x).values) : u ∈ ns.values ∨ u = x := by
  cases hx : ns.contains x with
  | true =>
    rw [insert_of_contains hx] at h
    exact .inl h
  | false =>
    rw [values_insert hx] at h
    exact (List.mem_append.1 h).imp_right List.mem_singleton.1

/-! ### Adding one value -/

theorem contains_insert_of_contains (h : ns.contains y = true) (x : Value) :
    (ns.insert x).contains y = true := by
  obtain ⟨u, hu, huy⟩ := contains_eq_true.1 h
  refine contains_eq_true.2 ⟨u, ?_, huy⟩
  cases hx : ns.contains x with
  | true => rwa [insert_of_contains hx]
  | false =>
    rw [values_insert hx]
    exact List.mem_append_left _ hu

theorem contains_or_eqv_of_insert (h : (ns.insert x).contains y = true) :
    ns.contains y = true ∨ x.eqv y = true := by
  obtain ⟨u, hu, huy⟩ := contains_eq_true.1 h
  rcases mem_values_insert hu with hu | rfl
  · exact .inl (contains_eq_true.2 ⟨u, hu, huy⟩)
  · exact .inr huy

theorem contains_insert (h : ∀ u ∈ ns.values, u.Subsumes x) :
    (ns.insert x).contains y = true ↔ ns.contains y = true ∨ x.eqv y = true := by
  refine ⟨contains_or_eqv_of_insert, ?_⟩
  rintro (hy | hy)
  · exact contains_insert_of_contains hy x
  · refine contains_eq_true.2 ?_
    cases hx : ns.contains x with
    | true =>
      obtain ⟨u, hu, hux⟩ := contains_eq_true.1 hx
      rw [insert_of_contains hx]
      exact ⟨u, hu, h u hu hux y hy⟩
    | false =>
      rw [values_insert hx]
      exact ⟨x, List.mem_append_right _ List.mem_cons_self, hy⟩

/-- A value that equals none of the set is subsumed by all of them. -/
theorem subsumes_of_not_contains (h : ns.contains x = false) : ∀ u ∈ ns.values, u.Subsumes x := by
  intro u hu hux
  exact absurd (contains_eq_true.2 ⟨u, hu, hux⟩) (Bool.eq_false_iff.1 h)

/-! ### Adding one value after the other -/

theorem contains_foldl_insert {vs : List Value}
    (h : ∀ u ∈ ns.values ++ vs, ∀ x ∈ vs, u.Subsumes x) :
    (vs.foldl insert ns).contains y = true ↔
      ns.contains y = true ∨ ∃ v ∈ vs, v.eqv y = true := by
  induction vs generalizing ns with
  | nil => simp
  | cons x rest ih =>
    have hx : ∀ u ∈ ns.values, u.Subsumes x :=
      fun u hu => h u (List.mem_append_left _ hu) x List.mem_cons_self
    have hrest : ∀ u ∈ (ns.insert x).values ++ rest, ∀ z ∈ rest, u.Subsumes z := by
      intro u hu z hz
      refine h u ?_ z (List.mem_cons_of_mem _ hz)
      rcases List.mem_append.1 hu with hu | hu
      · rcases mem_values_insert hu with hu | rfl
        · exact List.mem_append_left _ hu
        · exact List.mem_append_right _ List.mem_cons_self
      · exact List.mem_append_right _ (List.mem_cons_of_mem _ hu)
    rw [List.foldl_cons, ih hrest, contains_insert hx, List.exists_mem_cons_iff, or_assoc]

/-- A set that is made from values that subsume each other contains what equals one of them, and
absence. -/
theorem contains_ofList {vs : List Value} (h : ∀ u ∈ vs, ∀ x ∈ vs, u.Subsumes x) :
    (ofList vs).contains y = true ↔ y = .absent ∨ ∃ v ∈ vs, v.eqv y = true := by
  have habsent : contains {} y = true ↔ y = .absent := by
    cases y <;> simp [contains, values, Value.eqv]
  rw [ofList, contains_foldl_insert ?_, habsent]
  intro u hu x hx
  rcases List.mem_cons.1 hu with rfl | hu
  · exact Value.absent_subsumes x
  · exact h u hu x hx

theorem contains_singleton {a : Value} :
    (ofList [a]).contains y = true ↔ y = .absent ∨ a.eqv y = true := by
  have hsubsumes : ∀ u ∈ [a], ∀ x ∈ [a], u.Subsumes x := by
    intro u hu x hx
    cases List.mem_singleton.1 hu
    cases List.mem_singleton.1 hx
    exact .refl _
  simp [contains_ofList hsubsumes]

/-- An ambiguous value is left out by some set that does not contain all that equals it. -/
theorem exists_not_contains_insert (h : x.Ambiguous) : ∃ a c : Value, a.Distinct ∧ c.Distinct ∧
    c.eqv x = true ∧ ((ofList [a]).insert x).contains c = false := by
  obtain ⟨a, c, ha, hc, hax, hcx, hac⟩ := h
  have hcontains : (ofList [a]).contains x = true := contains_singleton.2 (.inr hax)
  refine ⟨a, c, ha, hc, hcx, Bool.eq_false_iff.2 fun hmore => ?_⟩
  rw [insert_of_contains hcontains] at hmore
  rcases contains_singleton.1 hmore with rfl | hac'
  · cases Value.eq_absent_of_eqv hcx
    exact Bool.false_ne_true (hac.symm.trans hax)
  · exact Bool.false_ne_true (hac.symm.trans hac')

/-- Adding a value adds exactly what equals it, unless it is left out for an equal value and has a
float in it that two integers have as their nearest double. -/
theorem contains_insert_exact :
    (∀ (ns : Nonvalues) (x y : Value), x.Distinct → y.Distinct →
      (ns.contains y = true → (ns.insert x).contains y = true) ∧
      ((ns.insert x).contains y = true → ns.contains y = true ∨ y.eqv x = true) ∧
      (ns.contains x = false ∨ (∀ z ∈ x.floats, Value.Unshared z) →
        ((ns.insert x).contains y = true ↔ ns.contains y = true ∨ y.eqv x = true))) ∧
    (∀ x : Value, x.Distinct → (∀ z ∈ x.floats, z.isNaN = false) →
      (∃ z ∈ x.floats, ¬Value.Unshared z) →
      ∃ a y : Value, a.Distinct ∧ y.Distinct ∧ y.eqv x = true ∧
        ((ofList [a]).insert x).contains y = false) ∧
    (∀ z : Float, z.abs < Float.ofNat (2 ^ 53) → Value.Unshared z) ∧
    ∀ vs : List Value, (∀ v ∈ vs, v.Distinct) →
      (∀ v ∈ vs, (∀ z ∈ v.floats, Value.Unshared z) ∨ ∀ u ∈ vs, u.eqv v = true → u = v) →
      ∀ y : Value, y.Distinct →
        ((ofList vs).contains y = true ↔ y = .absent ∨ ∃ v ∈ vs, y.eqv v = true) ∧
        ∀ vs' : List Value, vs.Perm vs' → (ofList vs').contains y = (ofList vs).contains y := by
  refine ⟨fun ns x y hx hy => ?_, fun x hx hnan => ?_, fun z hz => Value.unshared_of_abs_lt hz,
    fun vs hvs h y hy => ?_⟩
  · rw [Value.eqv_comm hy hx]
    refine ⟨fun h => contains_insert_of_contains h x, contains_or_eqv_of_insert, ?_⟩
    rintro (hnew | hunshared)
    · exact contains_insert (subsumes_of_not_contains hnew)
    · exact contains_insert fun u _ => Value.subsumes_of_unshared hunshared u
  · rintro ⟨z, hz, hshared⟩
    exact exists_not_contains_insert (Value.ambiguous_of_shared hx hnan hz hshared)
  · have hsubsumes : ∀ u ∈ vs, ∀ x ∈ vs, u.Subsumes x := by
      intro u hu x hx
      rcases h x hx with hunshared | hsame
      · exact Value.subsumes_of_unshared hunshared u
      · intro hux
        rw [hsame u hu hux]
        exact fun _ hy => hy
    refine ⟨(contains_ofList hsubsumes).trans (or_congr_right ?_), fun vs' hperm => ?_⟩
    · exact exists_congr fun v => and_congr_right fun hv => by rw [Value.eqv_comm (hvs v hv) hy]
    · have hsubsumes' : ∀ u ∈ vs', ∀ x ∈ vs', u.Subsumes x := fun u hu x hx =>
        hsubsumes u (hperm.mem_iff.2 hu) x (hperm.mem_iff.2 hx)
      refine Bool.eq_iff_iff.2 ((contains_ofList hsubsumes').trans ?_)
      rw [contains_ofList hsubsumes]
      simp only [hperm.mem_iff]

/-- A float that two integers have as their nearest double: the set is told apart from the one that
is made in the other order by the integer that the float equals and the first value does not. -/
theorem contains_insert_shared :
    let a : Value := .int 9007199254740992
    let x : Value := .float 9007199254740992
    let y : Value := .int 9007199254740993
    y.eqv x = true ∧ ((ofList [a]).insert x).contains y = false ∧
      (ofList [a, x]).contains y ≠ (ofList [x, a]).contains y := by
  decide

/-- A small float that is left out for the integer it equals, a large one, and integers of any size
in two orders. -/
theorem contains_insert_exact_numbers :
    let two : Value := .map [("n", .float 2)]
    let large : Value := .float 9007199254740992
    let vs : List Value := [.int 9007199254740992, two, .seq [.float 2.5], .int 9007199254740993]
    (∀ y : Value, y.Distinct →
      (((ofList [.map [("n", .int 2)]]).insert two).contains y = true ↔
        (ofList [.map [("n", .int 2)]]).contains y = true ∨ y.eqv two = true)) ∧
    (∃ a y : Value, y.eqv large = true ∧ ((ofList [a]).insert large).contains y = false) ∧
    (ofList vs.reverse).contains (.map [("n", .int 2)]) = true := by
  intro two large vs
  obtain ⟨hadd, hshared, hsmall, horder⟩ := contains_insert_exact
  have hunshared : ∀ v ∈ two :: vs, ∀ z ∈ v.floats, Value.Unshared z := by
    have hbound : ∀ v ∈ two :: vs, ∀ z ∈ v.floats, z.abs < Float.ofNat (2 ^ 53) := by decide
    exact fun v hv z hz => hsmall z (hbound v hv z hz)
  have hvs : ∀ v ∈ vs, v.Distinct := by decide
  refine ⟨fun y hy => ?_, ?_, ?_⟩
  · exact (hadd _ two y (by decide) hy).2.2 (.inr (hunshared two List.mem_cons_self))
  · have hlarge : ¬Value.Unshared 9007199254740992 := fun h =>
      absurd (h 9007199254740992 9007199254740993 rfl rfl) (by decide)
    obtain ⟨a, y, -, -, hy, hmissing⟩ :=
      hshared large trivial (by decide) ⟨_, List.mem_singleton_self _, hlarge⟩
    exact ⟨a, y, hy, hmissing⟩
  · obtain ⟨hcontains, hperm⟩ := horder vs hvs
      (fun v hv => .inl (hunshared v (List.mem_cons_of_mem _ hv)))
      (.map [("n", .int 2)]) (by decide)
    rw [hperm vs.reverse vs.reverse_perm.symm, hcontains]
    exact .inr ⟨two, by simp [vs], by decide⟩

end Nonvalues

end Reshape
