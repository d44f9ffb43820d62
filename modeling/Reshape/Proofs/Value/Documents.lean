import Reshape.Proofs.Json.Leaves
import Reshape.Value.Json

/-!
# Values as documents

Reading a document as a value and writing the value changes at most leaves (`toJson_ofJson`), namely
integers that are out of range and floats that are not finite, which no document has. So documents
with integers in range come back as they are, and so does every document that a value is written
as (`leaf_toJson`). The text that is written without a document in between is the text of the
document (`encode_eq_text`).
-/

namespace Reshape

theorem fitsInt64_iff {n : Int} : fitsInt64 n = true ↔ (Int64.ofInt n).toInt = n := by
  constructor
  · intro h
    obtain ⟨hleast, hgreatest⟩ := (Bool.and_eq_true_iff).1 h
    exact Int64.toInt_ofInt_of_le (of_decide_eq_true hleast)
      (Int.lt_add_one_of_le (of_decide_eq_true hgreatest))
  · intro h
    rw [← h]
    exact Bool.and_eq_true_iff.2 ⟨decide_eq_true (Int64.minValue_le_toInt _),
      decide_eq_true (Int64.toInt_le _)⟩

namespace Value

/-! ### There and back -/

theorem isAbsent_ofJson (j : Json) : (ofJson j).isAbsent = false := by
  cases j with
  | int n =>
    rw [ofJson]
    split <;> rfl
  | _ => rfl

/-- A leaf of a document that is read and written. -/
def rewritten (leaf : Json) : Json :=
  (ofJson leaf).toJson

mutual

theorem toJson_ofJson : ∀ j : Json, (ofJson j).toJson = j.mapLeaves rewritten
  | .arr items => congrArg Json.arr (toItemsJson_ofItems items)
  | .obj entries => congrArg Json.obj (toEntriesJson_ofEntries entries)
  | .null | .bool _ | .int _ | .float _ | .str _ => rfl

theorem toItemsJson_ofItems :
    ∀ items : List Json, toItemsJson (ofItems items) = Json.mapItems rewritten items
  | [] => rfl
  | j :: rest => by
    rw [ofItems, toItemsJson, toJson_ofJson j, toItemsJson_ofItems rest, Json.mapItems]

theorem toEntriesJson_ofEntries :
    ∀ entries : List (String × Json),
      toEntriesJson (ofEntries entries) = Json.mapEntries rewritten entries
  | [] => rfl
  | (k, j) :: rest => by
    rw [ofEntries, toEntriesJson, isAbsent_ofJson, toJson_ofJson j, toEntriesJson_ofEntries rest,
      Json.mapEntries]
    rfl

end

theorem rewritten_int {n : Int} : rewritten (.int n) = .int n ↔ fitsInt64 n = true := by
  rw [rewritten, ofJson]
  split
  · rename_i hfits
    simp [toJson, fitsInt64_iff.1 hfits, hfits]
  · rename_i hlarge
    refine iff_of_false (fun h => ?_) hlarge
    rw [toJson] at h
    split at h <;> cases h

theorem rewritten_float {x : Float} : rewritten (.float x) = .float x ↔ x.isFinite = true := by
  rw [rewritten, ofJson, toJson]
  split <;> simp_all

theorem rewritten_eq_self_iff {j : Json} :
    (∀ leaf ∈ j.leaves, rewritten leaf = leaf) ↔
      (∀ n, .int n ∈ j.leaves → fitsInt64 n = true) ∧
        ∀ x, .float x ∈ j.leaves → x.isFinite = true := by
  constructor
  · intro h
    exact ⟨fun n hn => rewritten_int.1 (h _ hn), fun x hx => rewritten_float.1 (h _ hx)⟩
  · rintro ⟨hints, hfloats⟩ leaf hleaf
    cases leaf with
    | int n => exact rewritten_int.2 (hints n hleaf)
    | float x => exact rewritten_float.2 (hfloats x hleaf)
    | arr | obj => cases Json.isLeaf_of_mem hleaf
    | null | bool | str => rfl

mutual

theorem leaf_toJson : ∀ (v : Value), ∀ leaf ∈ v.toJson.leaves, rewritten leaf = leaf
  | .seq items => leaf_toItemsJson items
  | .map entries => leaf_toEntriesJson entries
  | .int n => by
    intro leaf h
    cases List.mem_singleton.1 h
    exact rewritten_int.2 (fitsInt64_iff.2 (by rw [Int64.ofInt_toInt]))
  | .float x => by
    intro leaf h
    rw [toJson] at h
    split at h
    · rename_i hfinite
      cases List.mem_singleton.1 h
      exact rewritten_float.2 hfinite
    · cases List.mem_singleton.1 h
      rfl
  | .absent | .null | .bool _ | .str _ | .date _ => by
    intro leaf h
    cases List.mem_singleton.1 h
    rfl

theorem leaf_toItemsJson :
    ∀ (items : List Value), ∀ leaf ∈ Json.itemLeaves (toItemsJson items), rewritten leaf = leaf
  | [], _, h => nomatch h
  | v :: rest, leaf, h =>
    (List.mem_append.1 h).elim (leaf_toJson v leaf) (leaf_toItemsJson rest leaf)

theorem leaf_toEntriesJson :
    ∀ (entries : List (String × Value)),
      ∀ leaf ∈ Json.entryLeaves (toEntriesJson entries), rewritten leaf = leaf
  | [], _, h => nomatch h
  | (k, v) :: rest, leaf, h => by
    rw [toEntriesJson] at h
    split at h
    · exact leaf_toEntriesJson rest leaf h
    · exact (List.mem_append.1 h).elim (leaf_toJson v leaf) (leaf_toEntriesJson rest leaf)

end

/-! ### Texts -/

/-- What stands in front of an item, or of the items that are left. -/
def separator {α : Type} (first : Bool) (rest : List α) : List Char :=
  if first || rest.isEmpty then [] else [',']

theorem itemsText_cons (j : Json) (rest : List Json) :
    Json.itemsText (j :: rest) = j.text ++ separator false rest ++ Json.itemsText rest := by
  cases rest <;> simp [Json.itemsText, separator]

theorem entriesText_cons (k : String) (j : Json) (rest : List (String × Json)) :
    Json.entriesText ((k, j) :: rest) =
      Json.quoted k ++ ':' :: j.text ++ separator false rest ++ Json.entriesText rest := by
  cases rest <;> simp [Json.entriesText, separator]

mutual

theorem encode_eq_text : ∀ v : Value, v.encode = v.toJson.text
  | .seq items => by
    rw [encode, encodeItems_eq, toJson, Json.text]
    rfl
  | .map entries => by
    rw [encode, encodeEntries_eq, toJson, Json.text]
    rfl
  | .float x => by
    rw [encode, toJson, Json.floatText]
    split <;> simp [Json.text, Json.floatText, *]
  | .absent | .null | .bool _ | .int _ | .str _ | .date _ => rfl

theorem encodeItems_eq (first : Bool) : ∀ items : List Value,
    encodeItems first items =
      separator first (toItemsJson items) ++ Json.itemsText (toItemsJson items)
  | [] => by simp [encodeItems, toItemsJson, separator, Json.itemsText]
  | v :: rest => by
    rw [encodeItems, encode_eq_text v, encodeItems_eq false rest, toItemsJson, itemsText_cons]
    simp [separator]

theorem encodeEntries_eq (first : Bool) : ∀ entries : List (String × Value),
    encodeEntries first entries =
      separator first (toEntriesJson entries) ++ Json.entriesText (toEntriesJson entries)
  | [] => by simp [encodeEntries, toEntriesJson, separator, Json.entriesText]
  | (k, v) :: rest => by
    rw [encodeEntries, toEntriesJson]
    split
    · exact encodeEntries_eq first rest
    · rw [encode_eq_text v, encodeEntries_eq false rest, entriesText_cons]
      simp [separator]

end

/-- A document comes back as it is from the value that it is read as, exactly if its integers are in
range and its floats finite, which all floats of documents are. What a value is written as always
comes back, and has the same text as the value. -/
theorem toJson_ofJson_eq_self :
    (∀ j : Json, (ofJson j).toJson = j ↔
      (∀ n, .int n ∈ j.leaves → fitsInt64 n = true) ∧
        ∀ x, .float x ∈ j.leaves → x.isFinite = true) ∧
    ∀ v : Value, (ofJson v.toJson).toJson = v.toJson ∧ v.encode = v.toJson.text := by
  have hback (j : Json) : (ofJson j).toJson = j ↔ ∀ leaf ∈ j.leaves, rewritten leaf = leaf := by
    rw [toJson_ofJson, Json.mapLeaves_eq_self_iff]
  exact ⟨fun j => (hback j).trans rewritten_eq_self_iff,
    fun v => ⟨(hback _).2 (leaf_toJson v), encode_eq_text v⟩⟩

end Value

end Reshape
