import Reshape.Proofs.Pipeline.Flow

/-!
# Keys

A key names one place in a value: the entry under a name, or a slot of a sequence. `child` reads
that place and `put` writes it, one level deep; `follow` follows a path of keys. A key move reads
the child (`extractField_child`, `extractIndex_child`), and built it puts (`constructMove_key`).
-/

namespace Reshape

/-- The entry under a name, or a slot that a path can build. -/
inductive Key where
  | field (name : String)
  | slot (n : Fin (Path.lastSlot + 1))
deriving DecidableEq

namespace Key

def move : Key → Move
  | field name => .field name
  | slot n => .index (Int64.ofNat n)

def isField : Key → Bool
  | field _ => true
  | slot _ => false

/-- The pipeline of a path of keys, none of them inverted. -/
def pipeline {ω : Type} (p : List Key) : Pipeline ω :=
  Step.ofMoves false (p.map move)

theorem toInt_slot (n : Fin (Path.lastSlot + 1)) : (Int64.ofNat n).toInt = n :=
  Int64.toInt_ofNat_of_lt (Nat.lt_of_lt_of_le n.isLt (by decide))

theorem move_ne_each (k : Key) : k.move ≠ .each := by
  cases k <;> simp [move]

end Key

namespace Value

/-- What stands at a key, absence if nothing does. -/
def child : Value → Key → Value
  | map es, .field name => (Entries.get? es name).getD absent
  | seq items, .slot n => items[n.val]?.getD absent
  | _, _ => absent

/-- A sequence with holes up to and including slot `n`, if it ends before it. -/
def padded (items : List Value) (n : Nat) : List Value :=
  items ++ List.replicate (n + 1 - items.length) absent

/-- Writes `v` at a key. A new name comes last and a far slot leaves holes; a value of another kind
gives way to a fresh map or sequence. -/
def put : Value → Key → Value → Value
  | map es, .field name, v => map (Entries.insert es name v)
  | _, .field name, v => map [(name, v)]
  | seq items, .slot n, v => seq ((padded items n).set n v)
  | _, .slot n, v => seq ((padded [] n).set n v)

/-- What stands at the end of a path of keys. -/
def follow (t : Value) (p : List Key) : Value :=
  p.foldl child t

@[simp] theorem follow_cons (t : Value) (k : Key) (p : List Key) :
    t.follow (k :: p) = (t.child k).follow p := rfl

@[simp] theorem child_absent (k : Key) : absent.child k = absent := by
  cases k <;> rfl

@[simp] theorem follow_absent (p : List Key) : absent.follow p = absent := by
  induction p with
  | nil => rfl
  | cons k rest ih => simpa using ih

theorem length_padded (items : List Value) (n : Nat) :
    (padded items n).length = max items.length (n + 1) := by
  simp only [padded, List.length_append, List.length_replicate]
  omega

theorem getElem?_padded (items : List Value) (n i : Nat) :
    (padded items n)[i]?.getD absent = items[i]?.getD absent := by
  simp only [padded, List.getElem?_append]
  split
  · rfl
  · rename_i h
    have hnone : items[i]? = none := List.getElem?_eq_none (by omega)
    simp only [hnone, List.getElem?_replicate, Option.getD_none]
    split <;> rfl

theorem child_put (t : Value) (k : Key) (v : Value) : (t.put k v).child k = v := by
  have hslot (items : List Value) (n : Nat) : ((padded items n).set n v)[n]?.getD absent = v := by
    have hlt : n < (padded items n).length := by rw [length_padded]; omega
    simp [hlt]
  cases k with
  | field name => cases t <;> simp [put, child, Entries.get?]
  | slot n => cases t <;> simp only [put, child, hslot]

theorem put_child {t : Value} {k : Key} (h : t.child k ≠ absent) : t.put k (t.child k) = t := by
  cases k with
  | field name =>
    cases t <;> simp only [child, ne_eq, not_true_eq_false] at h
    rename_i es
    cases hget : Entries.get? es name with
    | none => simp [hget] at h
    | some u => simp [put, child, hget, Entries.insert_get? hget]
  | slot n =>
    cases t <;> simp only [child, ne_eq, not_true_eq_false] at h
    rename_i items
    have hlt : n.val < items.length := by
      by_cases hn : n.val < items.length
      · exact hn
      · simp [List.getElem?_eq_none (Nat.le_of_not_lt hn)] at h
    have hpad : padded items n = items := by
      simp only [padded, show n.val + 1 - items.length = 0 by omega, List.replicate_zero,
        List.append_nil]
    simp [put, child, hpad, hlt]

end Value

/-! ### Key moves -/

namespace Path

variable {ns : Nonvalues}

theorem extractField_child {t : Value} (h : t.isSeq = false) (name : String) :
    extractField name t = t.child (.field name) := by
  cases t <;> simp_all [extractField, Value.child, Value.isSeq]

theorem extractIndex_child (t : Value) (n : Fin (lastSlot + 1)) :
    extractIndex t (Int64.ofNat n) = t.child (.slot n) := by
  cases t with
  | seq items =>
    simp only [extractIndex, Value.getIndex?, Key.toInt_slot, Value.slot?, Value.child]
    split
    · rfl
    · rename_i h
      simp [List.getElem?_eq_none (Nat.le_of_not_lt h)]
  | _ => rfl

/-- A key move reads the child, unless it is a name that meets a sequence. -/
theorem step_key {k : Key} {r : Reading} (h : k.isField → r.value.isSeq = false) :
    (r.step ns k.move).value = r.value.child k := by
  cases k with
  | field name => exact extractField_child (h rfl) name
  | slot n => exact extractIndex_child r.value n

/-- What was put at a key is read there. -/
theorem step_key_put {k : Key} {r : Reading} {t v : Value} (h : r.value = t.put k v) :
    (r.step ns k.move).value = v := by
  have hseq : k.isField → r.value.isSeq = false := by
    intro hk
    cases k with
    | field name => cases t <;> simp [h, Value.put, Value.isSeq]
    | slot n => simp [Key.isField] at hk
  rw [step_key hseq, h, Value.child_put]

theorem putSlot_eq (items : List Value) (n : Nat) (v : Value) :
    putSlot items n v = (Value.padded items n).set n v := by
  have hlt : n < (Value.padded items n).length := by rw [Value.length_padded]; omega
  have htake : (Value.padded items n).take n =
      items.take n ++ List.replicate (n - items.length) .absent := by
    simp only [Value.padded, List.take_append, List.take_replicate]
    congr 2
    omega
  have hdrop : (Value.padded items n).drop (n + 1) = items.drop (n + 1) := by
    simp [Value.padded, List.drop_append]
  rw [List.set_eq_take_append_cons_drop, if_pos hlt, htake, hdrop, putSlot]

/-- A key move puts what is built below it on top of its target. -/
theorem constructMove_key {v : Value} (hv : ns.contains v = false) (c : Context) (k : Key)
    (target : Option Value) :
    constructMove ns c false target v k.move = (target.getD .absent).put k v := by
  cases k with
  | field name =>
    simp only [Key.move, constructMove, constructField, bindField, hv]
    rcases target with _ | t
    · rfl
    · cases t <;> rfl
  | slot n =>
    have hle : n.val ≤ lastSlot := Nat.le_of_lt_succ n.isLt
    simp only [Key.move, constructMove, constructIndex, hv, Key.toInt_slot, putSlot_eq]
    rcases target with _ | t
    · simp [hle, Value.put]
    · cases t <;> simp [hle, Value.put, Value.items?]

end Path

theorem Nonvalues.Scalar.contains_put {ns : Nonvalues} (h : ns.Scalar) (t : Value) (k : Key)
    (v : Value) : ns.contains (t.put k v) = false := by
  cases k <;> cases t <;> simp [Value.put, h.contains_map, h.contains_seq]

end Reshape
