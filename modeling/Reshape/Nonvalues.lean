import Reshape.Value.Equality
import Reshape.Value.Json

/-!
# Nonvalues

The values that a run treats as if nothing were there. Absence is always one of them; further
values are kept in the order in which they were added.
-/

namespace Reshape

structure Nonvalues where
  added : List Value := []
deriving Inhabited

namespace Nonvalues

/-- All values of the set, absence first. -/
def values (ns : Nonvalues) : List Value :=
  .absent :: ns.added

def contains (ns : Nonvalues) (v : Value) : Bool :=
  ns.values.any (Value.eqv · v)

/-- Adds a value unless one equal to it is there. -/
def insert (ns : Nonvalues) (v : Value) : Nonvalues :=
  if ns.contains v then ns else { added := ns.added ++ [v] }

def ofList (vs : List Value) : Nonvalues :=
  vs.foldl insert {}

def ofJsonList (docs : List Json) : Nonvalues :=
  ofList (docs.map Value.ofJson)

@[simp] theorem contains_absent (ns : Nonvalues) : ns.contains .absent = true := by
  simp [contains, values, Value.eqv]

theorem isAbsent_of_present {ns : Nonvalues} {v : Value} (h : ns.contains v = false) :
    v.isAbsent = false := by
  cases v with
  | absent => simp at h
  | _ => rfl

/-- The set holds no map and no sequence. -/
def Scalar (ns : Nonvalues) : Prop :=
  ∀ v ∈ ns.added, v.isMap = false ∧ v.isSeq = false

instance (ns : Nonvalues) : Decidable ns.Scalar :=
  inferInstanceAs (Decidable (∀ v ∈ ns.added, _ ∧ _))

theorem Scalar.contains_map {ns : Nonvalues} (h : ns.Scalar) (es : Entries Value) :
    ns.contains (.map es) = false := by
  simp only [contains, values, List.any_cons, List.any_eq_false, Bool.or_eq_false_iff,
    Bool.not_eq_true]
  exact ⟨by simp [Value.eqv], fun v hv => Value.eqv_map_of_not_isMap (h v hv).1 es⟩

theorem Scalar.contains_seq {ns : Nonvalues} (h : ns.Scalar) (items : List Value) :
    ns.contains (.seq items) = false := by
  simp only [contains, values, List.any_cons, List.any_eq_false, Bool.or_eq_false_iff,
    Bool.not_eq_true]
  exact ⟨by simp [Value.eqv], fun v hv => Value.eqv_seq_of_not_isSeq (h v hv).2 items⟩

theorem Scalar.contains_of_isMap {ns : Nonvalues} (h : ns.Scalar) {m : Value}
    (hm : m.isMap = true) : ns.contains m = false := by
  cases m with
  | map entries => exact h.contains_map entries
  | _ => simp [Value.isMap] at hm

end Nonvalues

end Reshape
