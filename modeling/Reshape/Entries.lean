/-!
# Insertion-ordered bindings

The entries of a keyed map as a list of bindings, oldest key first. `insert` gives a key its value
in place, or appends the binding when the key is new, so a list built by `insert` alone never
repeats a key (`nodup_keys_insert`).
-/

namespace Reshape

abbrev Entries (α : Type) := List (String × α)

namespace Entries

variable {α β : Type}

def keys (es : Entries α) : List String :=
  es.map (·.1)

def get? (es : Entries α) (key : String) : Option α :=
  match es with
  | [] => none
  | (k, v) :: rest => if k = key then some v else get? rest key

def contains (es : Entries α) (key : String) : Bool :=
  (es.get? key).isSome

def insert (es : Entries α) (key : String) (value : α) : Entries α :=
  match es with
  | [] => [(key, value)]
  | (k, v) :: rest => if k = key then (key, value) :: rest else (k, v) :: insert rest key value

/-- The bindings of all other keys. -/
def erase (es : Entries α) (key : String) : Entries α :=
  match es with
  | [] => []
  | (k, v) :: rest => if k = key then erase rest key else (k, v) :: erase rest key

/-- Bindings read in order: a repeated key keeps its first position and takes its last value. -/
def ofList (bindings : List (String × α)) : Entries α :=
  bindings.foldl (fun es b => es.insert b.1 b.2) []

def mapValues (f : α → β) (es : Entries α) : Entries β :=
  es.map fun (k, v) => (k, f v)

theorem length_erase_le (es : Entries α) (key : String) : (es.erase key).length ≤ es.length := by
  induction es with
  | nil => simp [erase]
  | cons b rest ih =>
    simp only [erase]
    split <;> simp <;> omega

theorem length_erase_lt {es : Entries α} {key : String} {value : α}
    (h : es.get? key = some value) : (es.erase key).length < es.length := by
  induction es with
  | nil => simp [get?] at h
  | cons b rest ih =>
    by_cases hk : b.1 = key
    · have := length_erase_le rest key
      simp [erase, hk]
      omega
    · simp only [get?, hk, if_false] at h
      simp [erase, hk, ih h]

@[simp] theorem get?_erase_self (es : Entries α) (key : String) :
    (es.erase key).get? key = none := by
  induction es with
  | nil => rfl
  | cons b rest ih =>
    obtain ⟨k, v⟩ := b
    by_cases hk : k = key <;> simp [erase, get?, hk, ih]

theorem get?_erase_of_ne (es : Entries α) {key other : String} (h : other ≠ key) :
    (es.erase key).get? other = es.get? other := by
  induction es with
  | nil => rfl
  | cons b rest ih =>
    obtain ⟨k, v⟩ := b
    by_cases hk : k = key
    · subst hk
      simp [erase, get?, Ne.symm h, ih]
    · simp [erase, get?, hk, ih]

@[simp] theorem get?_insert_self (es : Entries α) (key : String) (value : α) :
    (es.insert key value).get? key = some value := by
  induction es with
  | nil => simp [insert, get?]
  | cons b rest ih =>
    obtain ⟨k, v⟩ := b
    by_cases h : k = key <;> simp [insert, get?, h, ih]

theorem get?_insert_of_ne (es : Entries α) {key other : String} (value : α) (h : other ≠ key) :
    (es.insert key value).get? other = es.get? other := by
  induction es with
  | nil => simp [insert, get?, Ne.symm h]
  | cons b rest ih =>
    obtain ⟨k, v⟩ := b
    by_cases hk : k = key
    · subst hk
      simp [insert, get?, Ne.symm h]
    · by_cases ho : k = other
      · subst ho
        simp [insert, get?, hk]
      · simp [insert, get?, hk, ho, ih]

/-- Binding a key to what it is bound to changes nothing. -/
theorem insert_get? {es : Entries α} {key : String} {value : α} (h : es.get? key = some value) :
    es.insert key value = es := by
  induction es with
  | nil => simp [get?] at h
  | cons b rest ih =>
    obtain ⟨k, v⟩ := b
    by_cases hk : k = key
    · simp_all [get?, insert]
    · simp only [get?, hk, if_false] at h
      simp [insert, hk, ih h]

theorem get?_eq_none_iff (es : Entries α) (key : String) :
    es.get? key = none ↔ key ∉ es.keys := by
  induction es with
  | nil => simp [get?, keys]
  | cons b rest ih =>
    obtain ⟨k, v⟩ := b
    by_cases h : k = key
    · simp [get?, keys, h]
    · have h' : key ≠ k := fun e => h e.symm
      simp only [keys] at ih
      simp [get?, keys, h, h', ih]

theorem get?_append (xs ys : Entries α) (key : String) :
    Entries.get? (xs ++ ys) key = (xs.get? key).or (ys.get? key) := by
  induction xs with
  | nil => rfl
  | cons b rest ih =>
    obtain ⟨k, v⟩ := b
    by_cases hk : k = key <;> simp [get?, hk, ih]

/-- A new key comes last. -/
theorem insert_of_not_mem {es : Entries α} {key : String} (h : key ∉ es.keys) (value : α) :
    es.insert key value = es ++ [(key, value)] := by
  induction es with
  | nil => rfl
  | cons b rest ih =>
    obtain ⟨k, v⟩ := b
    obtain ⟨hk, hrest⟩ := not_or.1 (mt List.mem_cons.2 h)
    simp [insert, Ne.symm hk, ih hrest]

theorem keys_insert (es : Entries α) (key : String) (value : α) :
    (es.insert key value).keys = if key ∈ es.keys then es.keys else es.keys ++ [key] := by
  induction es with
  | nil => simp [insert, keys]
  | cons b rest ih =>
    obtain ⟨k, v⟩ := b
    by_cases h : k = key
    · simp [insert, keys, h]
    · have h' : key ≠ k := fun e => h e.symm
      simp only [keys] at ih
      simp only [insert, keys, h, if_false, List.map_cons, ih, List.mem_cons, h', false_or]
      by_cases hm : key ∈ rest.map (·.1) <;> simp [hm]

theorem nodup_keys_insert {es : Entries α} (h : es.keys.Nodup) (key : String) (value : α) :
    (es.insert key value).keys.Nodup := by
  rw [keys_insert]
  split
  · exact h
  · rename_i hk
    exact List.nodup_append.2 ⟨h, by simp, fun a ha b hb => by
      rintro rfl
      exact hk (List.mem_singleton.1 hb ▸ ha)⟩

end Entries

end Reshape
