import Reshape.Proofs.Value.Rebind

/-!
# The keys of merged maps

Binding values to keys one after the other `Extends` the entries that are there: their keys stay
where they are, and new ones come behind them in the order in which they first appear. So all
merges order the keys of two maps alike. The two shallow merges take the same value at every key
and differ only in whose keys come first (`shallowMerge_spreadInto`). A key that is bound to absence
counts as a key in this: it keeps its place and is filled there (`shallowMerge_fills`).
-/

namespace Reshape

/-! ### Entries that are extended -/

namespace Entries

/-- The keys, and behind them all others that are added, in the order in which they first appear. -/
def extendKeys (keys added : List String) : List String :=
  keys ++ (added.removeAll keys).eraseDups

@[simp] theorem extendKeys_nil (keys : List String) : extendKeys keys [] = keys :=
  List.append_nil keys

theorem extendKeys_append (keys front back : List String) :
    extendKeys (extendKeys keys front) back = extendKeys keys (front ++ back) := by
  have hback : back.removeAll (keys ++ (front.removeAll keys).eraseDups) =
      (back.removeAll keys).removeAll (front.removeAll keys) := by
    simp only [List.removeAll, List.filter_filter]
    refine List.filter_congr fun key _ => ?_
    by_cases hkey : key ∈ keys <;> simp [hkey]
  have hfront : (front ++ back).removeAll keys = front.removeAll keys ++ back.removeAll keys :=
    List.filter_append ..
  rw [extendKeys, extendKeys, hback, extendKeys, hfront, List.eraseDups_append, List.append_assoc]

/-- The keys that are bound to present values. -/
def presentKeys (es : Entries Value) : List String :=
  keys (es.filter fun b => !b.2.isAbsent)

/-- What `es` becomes when values are bound to the keys in `added`, one after the other. -/
structure Extends (es es' : Entries Value) (added : List String) : Prop where
  keys : es'.keys = extendKeys es.keys added
  kept : ∀ key, key ∉ added → es'.get? key = es.get? key

namespace Extends

variable {es es' es'' : Entries Value} {added added' : List String}

theorem refl (es : Entries Value) : Extends es es [] where
  keys := (extendKeys_nil _).symm
  kept _ _ := rfl

theorem trans (h : Extends es es' added) (h' : Extends es' es'' added') :
    Extends es es'' (added ++ added') where
  keys := by rw [h'.keys, h.keys, extendKeys_append]
  kept key hkey := by
    obtain ⟨hadded, hadded'⟩ := not_or.1 (mt List.mem_append.2 hkey)
    rw [h'.kept key hadded', h.kept key hadded]

theorem insert (es : Entries Value) (key : String) (v : Value) :
    Extends es (es.insert key v) [key] where
  keys := by
    rw [keys_insert, extendKeys]
    by_cases hkey : key ∈ es.keys <;> simp [List.cons_removeAll, List.eraseDups_cons, hkey]
  kept other hother := get?_insert_of_ne es v (mt List.mem_singleton.2 hother)

end Extends

theorem eraseDups_of_nodup {keys : List String} (h : keys.Nodup) : keys.eraseDups = keys := by
  induction keys with
  | nil => rfl
  | cons key rest ih =>
    obtain ⟨hkey, hrest⟩ := List.nodup_cons.1 h
    have hother : rest.filter (fun other => !other == key) = rest :=
      List.filter_eq_self.2 fun other hmem => by
        have hne : other ≠ key := fun heq => hkey (heq ▸ hmem)
        simpa using hne
    rw [List.eraseDups_cons, hother, ih hrest]

end Entries

namespace Binding

variable (k : Binding)

theorem extends_put (es : Entries Value) (b : String × Value) :
    Entries.Extends es (k.put es b.1 b.2) (Entries.presentKeys [b]) := by
  rw [put, Entries.presentKeys]
  cases hpresent : b.2.isAbsent with
  | true => simpa [hpresent, Entries.keys] using Entries.Extends.refl es
  | false => simpa [hpresent, Entries.keys] using Entries.Extends.insert es b.1 _

theorem extends_bind (es inc : Entries Value) :
    Entries.Extends es (k.bind es inc) inc.presentKeys := by
  rw [bind]
  induction inc generalizing es with
  | nil => exact .refl es
  | cons b rest ih =>
    have hkeys : Entries.presentKeys (b :: rest) =
        Entries.presentKeys [b] ++ Entries.presentKeys rest := by
      simp [Entries.presentKeys, Entries.keys, ← List.map_append, ← List.filter_append]
    rw [hkeys]
    exact (k.extends_put es b).trans (ih _)

theorem extends_bindAll (us : List (Binding × Entries Value)) (es : Entries Value) :
    Entries.Extends es (bindAll us es) (us.flatMap fun u => u.2.presentKeys) := by
  rw [bindAll]
  induction us generalizing es with
  | nil => exact .refl es
  | cons u us ih => exact (u.1.extends_bind es u.2).trans (ih _)

/-- Only new keys with present values are added. -/
theorem keys_bind (es : Entries Value) {inc : Entries Value} (hinc : inc.keys.Nodup) :
    (k.bind es inc).keys = es.keys ++ inc.presentKeys.removeAll es.keys := by
  have hpresent : inc.presentKeys.Nodup := hinc.sublist (List.filter_sublist.map _)
  have hadded : (inc.presentKeys.removeAll es.keys).Nodup := hpresent.sublist List.filter_sublist
  rw [(k.extends_bind es inc).keys, Entries.extendKeys, Entries.eraseDups_of_nodup hadded]

end Binding

/-! ### The two shallow merges -/

/-- The value of the preferred side, or that of the other side where there is none. -/
def Preference.choose : Preference → Value → Value → Value
  | .current, v, other => if v.isAbsent then other else v
  | .target, other, v => if v.isAbsent then other else v

namespace Value

section
variable (prefer : Preference) (cur tgt : Entries Value)

theorem shallowMerge_map : (map cur).shallowMerge (map tgt) prefer =
    map ((Binding.ofWins (prefer == .target)).bind cur tgt) :=
  congrArg map (Binding.settleAll_eq_bind ..)

theorem spreadInto_map : (map tgt).spreadInto (map cur) prefer =
    map ((Binding.ofWins (prefer == .current)).bind tgt cur) :=
  congrArg map (Binding.settleAll_eq_bind ..)

theorem combine_shallowMerge (v w : Value) :
    (Binding.ofWins (prefer == .target)).combine v w = prefer.choose v w := by
  cases prefer <;> rfl

theorem combine_spreadInto (v w : Value) :
    (Binding.ofWins (prefer == .current)).combine w v = prefer.choose v w := by
  cases prefer <;> rfl

theorem spreadInto_of_not_isMap {cur tgt : Value} (h : cur.isMap = false ∨ tgt.isMap = false) :
    tgt.spreadInto cur prefer = cur.shallowMerge tgt prefer := by
  unfold spreadInto
  split
  · simp [isMap] at h
  · rfl

end

/-- The shallow merges of two maps have the same value at every key, that of the preferred side if
it is present there. The merge lists the keys of the current side first and the spread those of the
target, which is its accumulator, and either lists behind them the new keys with present values. If
one side is no map, the two merges are the same. -/
theorem shallowMerge_spreadInto :
    (∀ (cur tgt : Entries Value) (prefer : Preference), cur.keys.Nodup → tgt.keys.Nodup →
      ∃ merged spread : Entries Value, (map cur).shallowMerge (map tgt) prefer = map merged ∧
          (map tgt).spreadInto (map cur) prefer = map spread ∧
        (∀ key, merged.valueAt key = prefer.choose (cur.valueAt key) (tgt.valueAt key)) ∧
        (∀ key, spread.valueAt key = merged.valueAt key) ∧
        merged.keys = cur.keys ++ tgt.presentKeys.removeAll cur.keys ∧
        spread.keys = tgt.keys ++ cur.presentKeys.removeAll tgt.keys) ∧
    ∀ (cur tgt : Value) (prefer : Preference), cur.isMap = false ∨ tgt.isMap = false →
      tgt.spreadInto cur prefer = cur.shallowMerge tgt prefer := by
  refine ⟨fun cur tgt prefer hcur htgt => ?_, fun _ _ prefer => spreadInto_of_not_isMap prefer⟩
  have hmerged (key : String) := Binding.valueAt_bind (.ofWins (prefer == .target)) htgt cur key
  have hspread (key : String) := Binding.valueAt_bind (.ofWins (prefer == .current)) hcur tgt key
  simp only [combine_shallowMerge, combine_spreadInto] at hmerged hspread
  exact ⟨_, _, shallowMerge_map prefer cur tgt, spreadInto_map prefer cur tgt, hmerged,
    fun key => (hspread key).trans (hmerged key).symm, Binding.keys_bind _ cur htgt,
    Binding.keys_bind _ tgt hcur⟩

/-- Maps with absent entries on both sides. -/
theorem shallowMerge_spreadInto_absent :
    ∃ cur tgt merged spread : Entries Value,
      cur = [("a", .absent), ("b", .null), ("c", .bool true)] ∧
      tgt = [("d", .null), ("b", .absent), ("a", .bool false), ("e", .absent)] ∧
      cur.keys.Nodup ∧ tgt.keys.Nodup ∧ (Value.null.isMap = false ∨ (map tgt).isMap = false) ∧
      (map cur).shallowMerge (map tgt) .target = map merged ∧
      (map tgt).spreadInto (map cur) .target = map spread ∧
      merged.valueAt "b" = .null ∧ spread.valueAt "b" = merged.valueAt "b" ∧
      merged.keys = ["a", "b", "c", "d"] ∧ spread.keys = ["d", "b", "a", "e", "c"] ∧
      (map tgt).spreadInto .null .target = Value.null.shallowMerge (map tgt) .target := by
  obtain ⟨hmaps, hother⟩ := shallowMerge_spreadInto
  obtain ⟨merged, spread, hmerged, hspread, hvalue, hsame, hkeys, hspreadKeys⟩ := hmaps
    [("a", .absent), ("b", .null), ("c", .bool true)]
    [("d", .null), ("b", .absent), ("a", .bool false), ("e", .absent)] .target (by decide)
    (by decide)
  exact ⟨_, _, merged, spread, rfl, rfl, by decide, by decide, .inl rfl, hmerged, hspread,
    hvalue "b", hsame "b", hkeys, hspreadKeys, hother .null _ .target (.inl rfl)⟩

/-- A key that is bound to absence is filled where it stands. If such keys were taken for missing,
the key would come behind those that are bound to present values. -/
theorem shallowMerge_fills :
    ∃ cur tgt merged : Entries Value,
      cur = [("x", .absent), ("y", .null)] ∧ tgt = [("x", .bool true)] ∧
      cur.keys.Nodup ∧ tgt.keys.Nodup ∧
      (map cur).shallowMerge (map tgt) .current = map merged ∧
      (map cur).spreadInto (map tgt) .current = map merged ∧
      merged.presentKeys = ["x", "y"] ∧
      cur.presentKeys ++ tgt.presentKeys.removeAll cur.presentKeys = ["y", "x"] :=
  ⟨_, _, [("x", .bool true), ("y", .null)], rfl, rfl, by decide, by decide, rfl, rfl, rfl, rfl⟩

end Value

end Reshape
