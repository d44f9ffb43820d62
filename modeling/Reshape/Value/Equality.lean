import Reshape.Value.Basic

/-!
# Equality of values

`eqv` compares values as a mapping does: an integer equals a float that its nearest double equals,
a NaN equals nothing, and maps are equal when they bind equal values to the same keys, in any order.
-/

namespace Reshape.Value

mutual

def eqv : Value → Value → Bool
  | absent, absent => true
  | null, null => true
  | bool a, bool b => a == b
  | int a, int b => a == b
  | float a, float b => a == b
  | int a, float b => ofInt64 a == b
  | float a, int b => a == ofInt64 b
  | str a, str b => a == b
  | date a, date b => a == b
  | seq a, seq b => eqvItems a b
  | map a, map b => a.length == b.length && eqvEntries a b
  | _, _ => false

def eqvItems : List Value → List Value → Bool
  | [], [] => true
  | a :: as, b :: bs => eqv a b && eqvItems as bs
  | _, _ => false

/-- Does every binding on the left have an equal one on the right? -/
def eqvEntries : List (String × Value) → List (String × Value) → Bool
  | [], _ => true
  | (k, a) :: rest, bs =>
    (match Entries.get? bs k with
      | some b => eqv a b
      | none => false) && eqvEntries rest bs

end

theorem eqv_map_of_not_isMap {v : Value} (h : v.isMap = false) (es : List (String × Value)) :
    v.eqv (.map es) = false := by
  cases v <;> simp_all [isMap, eqv]

theorem eqv_seq_of_not_isSeq {v : Value} (h : v.isSeq = false) (items : List Value) :
    v.eqv (.seq items) = false := by
  cases v <;> simp_all [isSeq, eqv]

end Reshape.Value
