import Reshape.Json.Basic

/-!
# The leaves of documents

The parts of a document that are neither arrays nor objects, in document order (`leaves`), and the
document with other parts in their place (`mapLeaves`). Replacing leaves touches nothing else, and
what a document becomes is told by what its own leaves become (`mapLeaves_eq_iff`).
-/

namespace Reshape.Json

mutual

/-- The parts that are neither arrays nor objects, in document order. Keys are no parts. -/
def leaves : Json → List Json
  | .arr items => itemLeaves items
  | .obj entries => entryLeaves entries
  | leaf => [leaf]

def itemLeaves : List Json → List Json
  | [] => []
  | j :: rest => leaves j ++ itemLeaves rest

def entryLeaves : List (String × Json) → List Json
  | [] => []
  | (_, j) :: rest => leaves j ++ entryLeaves rest

end

theorem mem_itemLeaves {leaf : Json} {items : List Json} :
    leaf ∈ itemLeaves items ↔ ∃ j ∈ items, leaf ∈ j.leaves := by
  induction items with
  | nil => simp [itemLeaves]
  | cons j rest ih => simp [itemLeaves, ih]

theorem mem_entryLeaves {leaf : Json} {entries : Entries Json} :
    leaf ∈ entryLeaves entries ↔ ∃ b ∈ entries, leaf ∈ b.2.leaves := by
  induction entries with
  | nil => simp [entryLeaves]
  | cons b rest ih => simp [entryLeaves, ih]

def isLeaf : Json → Bool
  | .arr _ | .obj _ => false
  | _ => true

mutual

theorem isLeaf_of_mem {leaf : Json} : ∀ {j : Json}, leaf ∈ leaves j → leaf.isLeaf = true
  | .arr _, h => isLeaf_of_mem_items h
  | .obj _, h => isLeaf_of_mem_entries h
  | .null, h | .bool _, h | .int _, h | .float _, h | .str _, h => by
    cases List.mem_singleton.1 h
    rfl

theorem isLeaf_of_mem_items {leaf : Json} :
    ∀ {items : List Json}, leaf ∈ itemLeaves items → leaf.isLeaf = true
  | [], h => nomatch h
  | _ :: _, h => (List.mem_append.1 h).elim isLeaf_of_mem isLeaf_of_mem_items

theorem isLeaf_of_mem_entries {leaf : Json} :
    ∀ {entries : List (String × Json)}, leaf ∈ entryLeaves entries → leaf.isLeaf = true
  | [], h => nomatch h
  | (_, _) :: _, h => (List.mem_append.1 h).elim isLeaf_of_mem isLeaf_of_mem_entries

end

mutual

/-- The document with another part in the place of each leaf. -/
def mapLeaves (f : Json → Json) : Json → Json
  | .arr items => .arr (mapItems f items)
  | .obj entries => .obj (mapEntries f entries)
  | leaf => f leaf

def mapItems (f : Json → Json) : List Json → List Json
  | [] => []
  | j :: rest => mapLeaves f j :: mapItems f rest

def mapEntries (f : Json → Json) : List (String × Json) → List (String × Json)
  | [] => []
  | (k, j) :: rest => (k, mapLeaves f j) :: mapEntries f rest

end

variable {f g : Json → Json}

mutual

theorem mapLeaves_eq_iff :
    ∀ {j : Json}, mapLeaves f j = mapLeaves g j ↔ ∀ leaf ∈ leaves j, f leaf = g leaf
  | .arr items => by simpa [mapLeaves, leaves] using mapItems_eq_iff
  | .obj entries => by simpa [mapLeaves, leaves] using mapEntries_eq_iff
  | .null | .bool _ | .int _ | .float _ | .str _ => by simp [mapLeaves, leaves]

theorem mapItems_eq_iff :
    ∀ {items : List Json}, mapItems f items = mapItems g items ↔
      ∀ leaf ∈ itemLeaves items, f leaf = g leaf
  | [] => by simp [mapItems, itemLeaves]
  | j :: rest => by
    rw [mapItems, mapItems, List.cons.injEq, mapLeaves_eq_iff, mapItems_eq_iff, itemLeaves,
      List.forall_mem_append]

theorem mapEntries_eq_iff :
    ∀ {entries : List (String × Json)}, mapEntries f entries = mapEntries g entries ↔
      ∀ leaf ∈ entryLeaves entries, f leaf = g leaf
  | [] => by simp [mapEntries, entryLeaves]
  | (k, j) :: rest => by
    rw [mapEntries, mapEntries, List.cons.injEq, Prod.mk.injEq, eq_self, true_and,
      mapLeaves_eq_iff, mapEntries_eq_iff, entryLeaves, List.forall_mem_append]

end

mutual

theorem mapLeaves_id : ∀ j : Json, mapLeaves id j = j
  | .arr items => congrArg arr (mapItems_id items)
  | .obj entries => congrArg obj (mapEntries_id entries)
  | .null | .bool _ | .int _ | .float _ | .str _ => rfl

theorem mapItems_id : ∀ items : List Json, mapItems id items = items
  | [] => rfl
  | j :: rest => by rw [mapItems, mapLeaves_id j, mapItems_id rest]

theorem mapEntries_id : ∀ entries : List (String × Json), mapEntries id entries = entries
  | [] => rfl
  | (k, j) :: rest => by rw [mapEntries, mapLeaves_id j, mapEntries_id rest]

end

/-- Nothing changes if no leaf does. -/
theorem mapLeaves_eq_self_iff {j : Json} :
    mapLeaves f j = j ↔ ∀ leaf ∈ leaves j, f leaf = leaf := by
  have h : mapLeaves f j = mapLeaves id j ↔ ∀ leaf ∈ leaves j, f leaf = leaf := mapLeaves_eq_iff
  rwa [mapLeaves_id] at h

end Reshape.Json
