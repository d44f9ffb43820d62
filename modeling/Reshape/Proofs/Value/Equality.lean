import Mathlib
import Reshape.Proofs.Value.Doubles
import Reshape.Proofs.Value.Hereditary
import Reshape.Value.Equality

/-!
# Laws of the equality of values

Equality looks up the keys of one map in the other. As no key is repeated this loses nothing, so
equality is symmetric (`eqv_comm`), and a value equals itself unless a NaN is in it
(`eqv_self_iff`). Equalities do not chain through a float that two integers have as their nearest
double. Through all other values they do (`eqv_trans`), and through no value that has such a float
and no NaN (`ambiguous_of_shared`).
-/

namespace Reshape

namespace Value

theorem forall₂_imp_of_mem {R S : Value → Value → Prop} {as bs : List Value}
    (h : List.Forall₂ R as bs) (himp : ∀ a ∈ as, ∀ b ∈ bs, R a b → S a b) :
    List.Forall₂ S as bs := by
  induction h with
  | nil => exact .nil
  | cons hab _ ih =>
    refine .cons (himp _ List.mem_cons_self _ List.mem_cons_self hab) (ih fun a ha b hb => ?_)
    exact himp a (List.mem_cons_of_mem _ ha) b (List.mem_cons_of_mem _ hb)

theorem forall₂_trans_of_mem {R : Value → Value → Prop} {as bs cs : List Value}
    (hab : List.Forall₂ R as bs) (hbc : List.Forall₂ R bs cs)
    (htrans : ∀ b ∈ bs, ∀ a c, R a b → R b c → R a c) : List.Forall₂ R as cs := by
  induction hab generalizing cs with
  | nil => exact hbc
  | cons hab _ ih =>
    obtain ⟨hfirst, hrest⟩ := List.forall_mem_cons.1 htrans
    cases hbc with
    | cons hbc hmore => exact .cons (hfirst _ _ hab hbc) (ih hmore hrest)

/-! ### The floats in a value -/

mutual

def floats : Value → List Float
  | float x => [x]
  | seq items => itemFloats items
  | map es => entryFloats es
  | _ => []

def itemFloats : List Value → List Float
  | [] => []
  | v :: rest => floats v ++ itemFloats rest

def entryFloats : List (String × Value) → List Float
  | [] => []
  | (_, v) :: rest => floats v ++ entryFloats rest

end

theorem mem_floats_seq {x : Float} {items : List Value} :
    x ∈ (seq items).floats ↔ ∃ v ∈ items, x ∈ v.floats := by
  rw [floats]
  induction items with
  | nil => simp [itemFloats]
  | cons v rest ih => rw [itemFloats, List.mem_append, ih, List.exists_mem_cons_iff]

theorem mem_floats_map {x : Float} {es : Entries Value} :
    x ∈ (map es).floats ↔ ∃ b ∈ es, x ∈ b.2.floats := by
  rw [floats]
  induction es with
  | nil => simp [entryFloats]
  | cons b rest ih => rw [entryFloats, List.mem_append, ih, List.exists_mem_cons_iff]

/-! ### Equality of sequences and maps -/

theorem eqv_seq {as bs : List Value} :
    (seq as).eqv (seq bs) = true ↔ List.Forall₂ (fun a b => a.eqv b = true) as bs := by
  rw [eqv]
  induction as generalizing bs with
  | nil => cases bs <;> simp [eqvItems]
  | cons a as ih => cases bs <;> simp [eqvItems, ih]

theorem eqv_map {as bs : Entries Value} :
    (map as).eqv (map bs) = true ↔ as.length = bs.length ∧
      ∀ a ∈ as, ∃ v, bs.get? a.1 = some v ∧ a.2.eqv v = true := by
  have hentries : eqvEntries as bs = true ↔
      ∀ a ∈ as, ∃ v, bs.get? a.1 = some v ∧ a.2.eqv v = true := by
    induction as with
    | nil => simp [eqvEntries]
    | cons a as ih =>
      rw [eqvEntries, Bool.and_eq_true, ih, List.forall_mem_cons]
      cases bs.get? a.1 <;> simp
  rw [eqv, Bool.and_eq_true, beq_iff_eq, hentries]

theorem exists_items {v : Value} (h : v.isSeq = true) : ∃ items, v = seq items := by
  cases v with
  | seq items => exact ⟨items, rfl⟩
  | _ => cases h

theorem isSeq_eq_of_eqv {a b : Value} (h : a.eqv b = true) : a.isSeq = b.isSeq := by
  cases a <;> cases b <;> first | rfl | cases h

theorem isMap_eq_of_eqv {a b : Value} (h : a.eqv b = true) : a.isMap = b.isMap := by
  cases a <;> cases b <;> first | rfl | cases h

/-! ### Symmetry -/

/-- Of two maps with equally many keys the second has all its keys in the first if the first has
them in the second. -/
theorem keys_subset_of_eqv {as bs : Entries Value} (has : as.keys.Nodup)
    (h : (map as).eqv (map bs) = true) : bs.keys ⊆ as.keys := by
  obtain ⟨hlength, hfound⟩ := eqv_map.1 h
  have hsubset : as.keys ⊆ bs.keys := by
    intro key hkey
    obtain ⟨a, ha, rfl⟩ := List.mem_map.1 hkey
    obtain ⟨v, hv, -⟩ := hfound a ha
    exact List.mem_map.2 ⟨(a.1, v), Entries.mem_of_get? hv, rfl⟩
  have hcount : bs.keys.length ≤ as.keys.length := by
    simp only [Entries.keys, List.length_map]
    exact hlength.ge
  exact ((List.subperm_of_subset has hsubset).perm_of_length_le hcount).symm.subset

theorem eqv_leaf_comm {a : Value} (hseq : a.isSeq = false) (hmap : a.isMap = false) (b : Value) :
    a.eqv b = b.eqv a := by
  cases a with
  | seq => cases hseq
  | map => cases hmap
  | _ => cases b <;> first | rfl | exact BEq.comm

theorem eqv_symm {a b : Value} (ha : a.Distinct) (hb : b.Distinct) (h : a.eqv b = true) :
    b.eqv a = true := by
  induction a using nestedInduction generalizing b with
  | leaf a hseq hmap => rwa [← eqv_leaf_comm hseq hmap]
  | seq as ih =>
    obtain ⟨bs, rfl⟩ := exists_items (isSeq_eq_of_eqv h).symm
    have has := (everywhere_seq as).1 ha
    have hbs := (everywhere_seq bs).1 hb
    have hflip : List.Forall₂ (fun a b : Value => b.eqv a = true) as bs :=
      forall₂_imp_of_mem (eqv_seq.1 h) fun a hamem b hbmem heqv =>
        ih a hamem (has a hamem) (hbs b hbmem) heqv
    exact eqv_seq.2 hflip.flip
  | map as ih =>
    obtain ⟨bs, rfl⟩ := exists_entries (isMap_eq_of_eqv h).symm
    obtain ⟨hasnd, has⟩ := (everywhere_map as).1 ha
    obtain ⟨hbsnd, hbs⟩ := (everywhere_map bs).1 hb
    obtain ⟨hlength, hfound⟩ := eqv_map.1 h
    refine eqv_map.2 ⟨hlength.symm, fun b hmem => ?_⟩
    obtain ⟨a, hamem, hkey⟩ :=
      List.mem_map.1 (keys_subset_of_eqv hasnd h (List.mem_map_of_mem hmem))
    obtain ⟨v, hv, heqv⟩ := hfound a hamem
    have hvb : v = b.2 := by
      rw [hkey, Entries.get?_of_mem hbsnd hmem] at hv
      exact (Option.some.inj hv).symm
    subst hvb
    exact ⟨a.2, hkey ▸ Entries.get?_of_mem hasnd hamem,
      ih a hamem (has a hamem) (hbs b hmem) heqv⟩

/-- Of two values without repeated keys it does not matter which one is compared with the other. -/
theorem eqv_comm {a b : Value} (ha : a.Distinct) (hb : b.Distinct) : a.eqv b = b.eqv a :=
  Bool.eq_iff_iff.2 ⟨eqv_symm ha hb, eqv_symm hb ha⟩

/-! ### Values that equal themselves -/

/-- A value equals itself unless there is a NaN in it. -/
theorem eqv_self_iff {v : Value} (hv : v.Distinct) :
    v.eqv v = true ↔ ∀ x ∈ v.floats, x.isNaN = false := by
  induction v using nestedInduction with
  | leaf v hseq hmap =>
    cases v with
    | seq => cases hseq
    | map => cases hmap
    | _ => simp [eqv, floats]
  | seq items ih =>
    have hitems := (everywhere_seq items).1 hv
    rw [eqv_seq, List.forall₂_same]
    refine ⟨fun h x hx => ?_, fun h v hmem => ?_⟩
    · obtain ⟨v, hmem, hx⟩ := mem_floats_seq.1 hx
      exact (ih v hmem (hitems v hmem)).1 (h v hmem) x hx
    · exact (ih v hmem (hitems v hmem)).2 fun x hx => h x (mem_floats_seq.2 ⟨v, hmem, hx⟩)
  | map es ih =>
    obtain ⟨hnd, hes⟩ := (everywhere_map es).1 hv
    rw [eqv_map]
    refine ⟨fun h x hx => ?_, fun h => ⟨rfl, fun b hmem => ?_⟩⟩
    · obtain ⟨b, hmem, hx⟩ := mem_floats_map.1 hx
      obtain ⟨v, hv, heqv⟩ := h.2 b hmem
      rw [Entries.get?_of_mem hnd hmem] at hv
      obtain rfl := Option.some.inj hv
      exact (ih b hmem (hes b hmem)).1 heqv x hx
    · exact ⟨b.2, Entries.get?_of_mem hnd hmem, (ih b hmem (hes b hmem)).2 fun x hx =>
        h x (mem_floats_map.2 ⟨b, hmem, hx⟩)⟩

/-! ### Equalities that chain -/

/-- No two integers have the float as their nearest double. -/
def Unshared (x : Float) : Prop :=
  ∀ m n : Int64, (ofInt64 m == x) = true → (ofInt64 n == x) = true → m = n

theorem unshared_of_abs_lt {x : Float} (hx : x.abs < Float.ofNat (2 ^ 53)) : Unshared x :=
  fun _ _ => Double.eq_of_ofInt64_beq hx

theorem eqv_int_iff {v : Value} {n : Int64} : v.eqv (int n) = true ↔
    v = int n ∨ ∃ x, v = float x ∧ (x == ofInt64 n) = true := by
  cases v <;> simp [eqv]

theorem eqv_float_iff {v : Value} {x : Float} : v.eqv (float x) = true ↔
    (∃ n, v = int n ∧ (ofInt64 n == x) = true) ∨ ∃ y, v = float y ∧ (y == x) = true := by
  cases v <;> simp [eqv]

/-- Numbers that equal an integer are equal. -/
theorem eqv_trans_int {a c : Value} {n : Int64} (ha : a.eqv (int n) = true)
    (hc : c.eqv (int n) = true) : a.eqv c = true := by
  rcases eqv_int_iff.1 ha with rfl | ⟨x, rfl, hx⟩
  · rwa [eqv_leaf_comm rfl rfl]
  · rcases eqv_int_iff.1 hc with rfl | ⟨y, rfl, hy⟩
    · exact ha
    · exact BEq.trans hx (BEq.symm hy)

/-- Numbers that equal an unshared float are equal. -/
theorem eqv_trans_float {a c : Value} {x : Float} (hx : Unshared x) (ha : a.eqv (float x) = true)
    (hc : c.eqv (float x) = true) : a.eqv c = true := by
  rcases eqv_float_iff.1 ha with ⟨m, rfl, hm⟩ | ⟨y, rfl, hy⟩
  · rcases eqv_float_iff.1 hc with ⟨n, rfl, hn⟩ | ⟨z, rfl, hz⟩
    · exact beq_iff_eq.2 (hx m n hm hn)
    · exact BEq.trans hm (BEq.symm hz)
  · rcases eqv_float_iff.1 hc with ⟨n, rfl, hn⟩ | ⟨z, rfl, hz⟩
    · exact BEq.trans hy (BEq.symm hn)
    · exact BEq.trans hy (BEq.symm hz)

theorem eqv_trans_leaf {a b c : Value} (hseq : b.isSeq = false) (hmap : b.isMap = false)
    (hab : a.eqv b = true) (hbc : b.eqv c = true) (h : ∀ x ∈ b.floats, Unshared x) :
    a.eqv c = true := by
  rw [eqv_leaf_comm hseq hmap] at hbc
  cases b with
  | int n => exact eqv_trans_int hab hbc
  | float x => exact eqv_trans_float (h x List.mem_cons_self) hab hbc
  | seq => cases hseq
  | map => cases hmap
  | _ => cases a <;> cases c <;> simp_all [eqv]

/-- What equals a value that has no shared float in it equals all that equal this value. -/
theorem eqv_trans {a b c : Value} (hab : a.eqv b = true) (hbc : b.eqv c = true)
    (h : ∀ x ∈ b.floats, Unshared x) : a.eqv c = true := by
  induction b using nestedInduction generalizing a c with
  | leaf b hseq hmap => exact eqv_trans_leaf hseq hmap hab hbc h
  | seq bs ih =>
    obtain ⟨as, rfl⟩ := exists_items (isSeq_eq_of_eqv hab)
    obtain ⟨cs, rfl⟩ := exists_items (isSeq_eq_of_eqv hbc).symm
    refine eqv_seq.2 (forall₂_trans_of_mem (eqv_seq.1 hab) (eqv_seq.1 hbc) ?_)
    exact fun b hmem _ _ hab hbc =>
      ih b hmem hab hbc fun x hx => h x (mem_floats_seq.2 ⟨b, hmem, hx⟩)
  | map bs ih =>
    obtain ⟨as, rfl⟩ := exists_entries (isMap_eq_of_eqv hab)
    obtain ⟨cs, rfl⟩ := exists_entries (isMap_eq_of_eqv hbc).symm
    obtain ⟨hlength, hfound⟩ := eqv_map.1 hab
    obtain ⟨hlength', hfound'⟩ := eqv_map.1 hbc
    refine eqv_map.2 ⟨hlength.trans hlength', fun a ha => ?_⟩
    obtain ⟨v, hv, hav⟩ := hfound a ha
    have hmem := Entries.mem_of_get? hv
    obtain ⟨w, hw, hvw⟩ := hfound' _ hmem
    exact ⟨w, hw, ih _ hmem hav hvw fun x hx => h x (mem_floats_map.2 ⟨_, hmem, hx⟩)⟩

/-! ### Equalities that do not chain -/

/-- Two values equal this one, but not each other. -/
def Ambiguous (v : Value) : Prop :=
  ∃ a c : Value, a.Distinct ∧ c.Distinct ∧ a.eqv v = true ∧ c.eqv v = true ∧ a.eqv c = false

section
variable {v : Value}

/-- Sequences that differ in one place only are equal if they are equal there. -/
theorem eqv_replace_item {front back : List Value} (hself : ∀ u ∈ front ++ back, u.eqv u = true)
    (a b : Value) : (seq (front ++ a :: back)).eqv (seq (front ++ b :: back)) = a.eqv b := by
  rw [eqv]
  induction front with
  | nil =>
    have hback : eqvItems back back = true := eqv_seq.2 (List.forall₂_same.2 hself)
    simp [eqvItems, hback]
  | cons u rest ih =>
    obtain ⟨hu, hrest⟩ := List.forall_mem_cons.1 hself
    simp [eqvItems, hu, ih hrest]

theorem eqv_replace_entry {front back : Entries Value}
    (hself : ∀ e ∈ front ++ back, e.2.eqv e.2 = true) {key : String} (a : Value) {b : Value}
    (hnd : (Entries.keys (front ++ (key, b) :: back)).Nodup) :
    (map (front ++ (key, a) :: back)).eqv (map (front ++ (key, b) :: back)) = a.eqv b := by
  have hfound {e : String × Value} (he : e ∈ front ++ (key, b) :: back) :
      Entries.get? (front ++ (key, b) :: back) e.1 = some e.2 :=
    Entries.get?_of_mem hnd he
  have hplace : Entries.get? (front ++ (key, b) :: back) key = some b :=
    hfound (e := (key, b)) (List.mem_append_right _ List.mem_cons_self)
  refine Bool.eq_iff_iff.2 (eqv_map.trans ⟨fun ⟨_, h⟩ => ?_, fun h => ⟨by simp, fun e he => ?_⟩⟩)
  · obtain ⟨v, hv, heqv⟩ := h (key, a) (List.mem_append_right _ List.mem_cons_self)
    obtain rfl := Option.some.inj (hplace.symm.trans hv)
    exact heqv
  · rcases List.mem_append.1 he with hleft | hright
    · exact ⟨e.2, hfound (List.mem_append_left _ hleft), hself e (List.mem_append_left _ hleft)⟩
    · rcases List.mem_cons.1 hright with rfl | hright
      · exact ⟨b, hplace, h⟩
      · exact ⟨e.2, hfound (List.mem_append_right _ (List.mem_cons_of_mem _ hright)),
          hself e (List.mem_append_right _ hright)⟩

theorem Ambiguous.item (h : v.Ambiguous) {front back : List Value}
    (hv : (seq (front ++ v :: back)).Distinct) (hself : ∀ u ∈ front ++ back, u.eqv u = true) :
    (seq (front ++ v :: back)).Ambiguous := by
  obtain ⟨a, c, ha, hc, hav, hcv, hac⟩ := h
  have hdistinct {u : Value} (hu : u.Distinct) : (seq (front ++ u :: back)).Distinct := by
    obtain ⟨hfront, hback⟩ := List.forall_mem_append.1 ((everywhere_seq _).1 hv)
    exact (everywhere_seq _).2 (List.forall_mem_append.2
      ⟨hfront, List.forall_mem_cons.2 ⟨hu, (List.forall_mem_cons.1 hback).2⟩⟩)
  have hreplace := eqv_replace_item hself
  exact ⟨seq (front ++ a :: back), seq (front ++ c :: back), hdistinct ha, hdistinct hc,
    (hreplace a v).trans hav, (hreplace c v).trans hcv, (hreplace a c).trans hac⟩

theorem Ambiguous.entry (h : v.Ambiguous) {front back : Entries Value} {key : String}
    (hv : (map (front ++ (key, v) :: back)).Distinct)
    (hself : ∀ e ∈ front ++ back, e.2.eqv e.2 = true) :
    (map (front ++ (key, v) :: back)).Ambiguous := by
  obtain ⟨a, c, ha, hc, hav, hcv, hac⟩ := h
  obtain ⟨hnd, hentries⟩ := (everywhere_map _).1 hv
  have hnd (u : Value) : (Entries.keys (front ++ (key, u) :: back)).Nodup := by
    simpa [Entries.keys] using hnd
  have hdistinct {u : Value} (hu : u.Distinct) : (map (front ++ (key, u) :: back)).Distinct := by
    obtain ⟨hfront, hback⟩ := List.forall_mem_append.1 hentries
    exact (everywhere_map _).2 ⟨hnd u, List.forall_mem_append.2
      ⟨hfront, List.forall_mem_cons.2 ⟨hu, (List.forall_mem_cons.1 hback).2⟩⟩⟩
  have hreplace (a b : Value) := eqv_replace_entry hself a (hnd b)
  exact ⟨map (front ++ (key, a) :: back), map (front ++ (key, c) :: back), hdistinct ha,
    hdistinct hc, (hreplace a v).trans hav, (hreplace c v).trans hcv, (hreplace a c).trans hac⟩

/-- A value with a shared float in it, and no NaN, is ambiguous. -/
theorem ambiguous_of_shared (hv : v.Distinct) (hnan : ∀ x ∈ v.floats, x.isNaN = false) {x : Float}
    (hx : x ∈ v.floats) (hshared : ¬Unshared x) : v.Ambiguous := by
  induction v using nestedInduction with
  | leaf v hseq hmap =>
    cases v with
    | float y =>
      obtain rfl := List.mem_singleton.1 hx
      simp only [Unshared, not_forall] at hshared
      obtain ⟨m, n, hm, hn, hne⟩ := hshared
      exact ⟨int m, int n, trivial, trivial, hm, hn, beq_eq_false_iff_ne.2 hne⟩
    | seq => cases hseq
    | map => cases hmap
    | _ => cases hx
  | seq items ih =>
    obtain ⟨v, hmem, hxv⟩ := mem_floats_seq.1 hx
    have hitems := (everywhere_seq items).1 hv
    have hnumbers (u : Value) (hu : u ∈ items) (y : Float) (hy : y ∈ u.floats) :
        y.isNaN = false :=
      hnan y (mem_floats_seq.2 ⟨u, hu, hy⟩)
    have hambiguous := ih v hmem (hitems v hmem) (hnumbers v hmem) hxv
    obtain ⟨front, back, rfl⟩ := List.append_of_mem hmem
    refine hambiguous.item hv fun u hu => ?_
    have hu : u ∈ front ++ v :: back :=
      (List.sublist_cons_self v back).append_left front |>.subset hu
    exact (eqv_self_iff (hitems u hu)).2 (hnumbers u hu)
  | map es ih =>
    obtain ⟨⟨key, v⟩, hmem, hxv⟩ := mem_floats_map.1 hx
    have hentries := ((everywhere_map es).1 hv).2
    have hnumbers (e : String × Value) (he : e ∈ es) (y : Float) (hy : y ∈ e.2.floats) :
        y.isNaN = false :=
      hnan y (mem_floats_map.2 ⟨e, he, hy⟩)
    have hambiguous := ih _ hmem (hentries _ hmem) (hnumbers _ hmem) hxv
    obtain ⟨front, back, rfl⟩ := List.append_of_mem hmem
    refine hambiguous.entry hv fun e he => ?_
    have he : e ∈ front ++ (key, v) :: back :=
      (List.sublist_cons_self (key, v) back).append_left front |>.subset he
    exact (eqv_self_iff (hentries e he)).2 (hnumbers e he)

end

end Value

end Reshape
