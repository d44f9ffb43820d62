import Reshape.Pipeline.Operation
import Reshape.Proofs.Value.Hereditary

/-!
# Taking up the results of fields

A shape runs its fields without a target (`gather`) and then takes up their results, one after the
other, on top of the target (`assemble_eq`). So the target plays no part in the runs, and whatever
hereditary property the target and the results have, what is assembled has it too
(`Hereditary.absorbAll`).
-/

namespace Reshape

variable {ω : Type}

/-- Takes up results in the order of their fields. -/
def absorbAll (ns : Nonvalues) (acc : Value) (taken : List (Branch ω × Value)) : Value :=
  taken.foldl (fun acc r => r.1.absorb ns acc r.2) acc

section
variable (ns : Nonvalues) (acc : Value)

@[simp] theorem absorbAll_nil : absorbAll ns acc ([] : List (Branch ω × Value)) = acc := rfl

@[simp] theorem absorbAll_cons (b : Branch ω) (result : Value) (rest : List (Branch ω × Value)) :
    absorbAll ns acc ((b, result) :: rest) = absorbAll ns (b.absorb ns acc result) rest := rfl

theorem absorbAll_append (front back : List (Branch ω × Value)) :
    absorbAll ns acc (front ++ back) = absorbAll ns (absorbAll ns acc front) back :=
  List.foldl_append

end

/-- What the results are taken up into: a map target, or nothing yet. -/
def seed : Option Value → Value
  | some (.map es) => .map es
  | _ => .map []

/-- The fields that take part in a run. -/
def activeIn (s : State) (bs : List (Branch ω)) : List (Branch ω) :=
  bs.filter fun b => Direction.admits b.only s.effective

/-- The results of the fields that take part. -/
def gather (bs : List (Branch ω)) (v : Value) (s : State) : Task ω (List Value) :=
  Task.joinAll ((activeIn s bs).map fun b => b.run v (s.withTarget none))

theorem assemble_eq (bs : List (Branch ω)) (v : Value) (s : State) :
    assemble bs v s =
      (gather bs v s).map fun results =>
        absorbAll s.nonvalues (seed s.target) ((activeIn s bs).zip results) := by
  rw [assemble]
  rcases s.target with _ | t
  · rfl
  · cases t <;> rfl

namespace Value.Hereditary

variable {P : Value → Prop}

theorem seed (h : Hereditary P) {target : Option Value} (ht : ∀ t ∈ target, P t) :
    P (seed target) := by
  unfold Reshape.seed
  split
  · exact ht _ rfl
  · exact h.empty

theorem absorb (h : Hereditary P) {acc result : Value} (hacc : P acc) (hresult : P result)
    (ns : Nonvalues) (b : Branch ω) : P (b.absorb ns acc result) := by
  have hmerged : P (acc.deepMerge result) := h.deepMerge hacc hresult
  unfold Branch.absorb
  split
  · exact hacc
  · split
    · exact h.spreadInto hacc hresult _
    · split
      · split
        · exact hacc
        · exact hmerged
      · exact hmerged

theorem absorbAll (h : Hereditary P) (ns : Nonvalues) {taken : List (Branch ω × Value)}
    (htaken : ∀ r ∈ taken, P r.2) {acc : Value} (hacc : P acc) :
    P (absorbAll ns acc taken) := by
  induction taken generalizing acc with
  | nil => exact hacc
  | cons r rest ih =>
    obtain ⟨hr, hrest⟩ := List.forall_mem_cons.1 htaken
    exact ih hrest (h.absorb hacc hr ns r.1)

end Value.Hereditary

end Reshape
