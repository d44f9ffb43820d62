import Reshape.Path.Construct
import Reshape.Proofs.Value.Hereditary

/-!
# Hereditary properties along paths

Reading and building take values apart and put them together: what is read in values with a
hereditary property has the property (`Hereditary.extract`), and so has what is built from them
(`Hereditary.construct`).
-/

namespace Reshape.Value.Hereditary

open Reshape.Path

variable {P : Value → Prop} {ns : Nonvalues}

/-! ### Reading -/

mutual

theorem extractField (h : Hereditary P) (name : String) :
    ∀ {v : Value}, P v → P (Path.extractField name v)
  | .map _, hv => h.getD fun _ hu => h.get? hv hu
  | .seq items, hv => (h.seq _).2 (extractFieldItems h name ((h.seq items).1 hv))
  | .absent, _ | .null, _ | .bool _, _ | .int _, _ | .float _, _ | .str _, _ | .date _, _ =>
    h.absent

theorem extractFieldItems (h : Hereditary P) (name : String) :
    ∀ {items : List Value}, (∀ v ∈ items, P v) → ∀ v ∈ Path.extractFieldItems name items, P v
  | [], _ => by simp [Path.extractFieldItems]
  | v :: rest, hitems => by
    obtain ⟨hv, hrest⟩ := List.forall_mem_cons.1 hitems
    exact List.forall_mem_cons.2 ⟨extractField h name hv, extractFieldItems h name hrest⟩

end

theorem extractIndex (h : Hereditary P) {v : Value} (hv : P v) (slot : Int64) :
    P (Path.extractIndex v slot) := by
  refine h.getD fun u hu => ?_
  cases v with
  | seq items =>
    obtain ⟨i, -, hi⟩ := Option.bind_eq_some_iff.1 hu
    exact (h.seq items).1 hv u (List.mem_of_getElem? hi)
  | _ => cases hu

theorem extractEach (h : Hereditary P) {v : Value} (hv : P v) (afterMissing : Bool) :
    P (Path.extractEach ns afterMissing v) := by
  have hempty : P (.seq []) := (h.seq []).2 (by simp)
  have hsingle : P (.seq [v]) := (h.seq [v]).2 (by simpa using hv)
  unfold Path.extractEach
  split
  · rename_i items
    refine (h.seq _).2 fun u hu => ?_
    obtain ⟨item, hitem, hu⟩ := List.mem_flatMap.1 (List.mem_filter.1 hu).1
    exact h.toItems ((h.seq items).1 hv item hitem) u hu
  · split
    · split
      · exact hempty
      · exact h.absent
    · exact hsingle

theorem reading_step (h : Hereditary P) {r : Reading} (hvalue : P r.value)
    (hcontext : ∀ v ∈ r.context, P v) (m : Move) :
    P (r.step ns m).value ∧ ∀ v ∈ (r.step ns m).context, P v := by
  cases m with
  | field name => exact ⟨h.extractField name hvalue, List.forall_mem_cons.2 ⟨hvalue, hcontext⟩⟩
  | index slot => exact ⟨h.extractIndex hvalue slot, List.forall_mem_cons.2 ⟨hvalue, hcontext⟩⟩
  | each => exact ⟨h.extractEach hvalue _, hcontext⟩
  | parent =>
    rw [Reading.step]
    rcases hc : r.context with _ | ⟨v, below⟩
    · exact ⟨h.absent, by simp [Context.pop?]⟩
    · exact List.forall_mem_cons.1 (hc ▸ hcontext)
  | root =>
    refine ⟨?_, by simp [Reading.step]⟩
    change P (r.context.bottom?.getD r.value)
    cases hbottom : r.context.bottom? with
    | none => exact hvalue
    | some v => exact hcontext v (List.mem_of_getLast? hbottom)
  | merge prefer => exact ⟨hvalue, hcontext⟩

theorem extract (h : Hereditary P) (moves : List Move) {v : Value} (hv : P v) {c : Context}
    (hc : ∀ u ∈ c, P u) :
    P (Path.extract ns moves v c).1 ∧ ∀ u ∈ (Path.extract ns moves v c).2, P u := by
  have hfold (r : Reading) (hr : P r.value ∧ ∀ u ∈ r.context, P u) :
      P (moves.foldl (Reading.step ns) r).value ∧
        ∀ u ∈ (moves.foldl (Reading.step ns) r).context, P u := by
    induction moves generalizing r with
    | nil => exact hr
    | cons m rest ih => exact ih _ (h.reading_step hr.1 hr.2 m)
  exact hfold _ ⟨hv, hc⟩

/-! ### Targets -/

theorem navigate_move (h : Hereditary P) {t : Value} (ht : P t) (m : Move) :
    ∀ u ∈ m.navigate t, P u := by
  have hpresent {v : Value} (hv : P v) : ∀ u ∈ Move.navigate.present v, P u := by
    intro u hu
    rw [Move.navigate.present] at hu
    split at hu
    · cases hu
    · cases hu
      exact hv
  cases m with
  | field name => exact hpresent (h.extractField name ht)
  | index slot => exact hpresent (h.extractIndex ht slot)
  | _ =>
    intro u hu
    cases hu
    exact ht

theorem navigate (h : Hereditary P) {target : Option Value} (ht : ∀ t ∈ target, P t)
    (moves : List Move) : ∀ u ∈ target.bind (Path.navigate · moves), P u := by
  have hfold (t : Option Value) (ht : ∀ u ∈ t, P u) :
      ∀ u ∈ moves.foldl (fun t m => t.bind (m.navigate ·)) t, P u := by
    induction moves generalizing t with
    | nil => exact ht
    | cons m rest ih =>
      refine ih _ fun u hu => ?_
      obtain ⟨t', ht', hu⟩ := Option.bind_eq_some_iff.1 hu
      exact h.navigate_move (ht t' ht') m u hu
  intro u hu
  obtain ⟨t, htarget, hu⟩ := Option.bind_eq_some_iff.1 hu
  exact hfold (some t) (fun t' ht' => by cases ht'; exact ht t htarget) u hu

/-! ### Building -/

section
variable {target : Option Value} {v : Value}

theorem bindField (h : Hereditary P) (ht : ∀ t ∈ target, P t) (hv : P v) (name : String) :
    P (Path.bindField ns name target v) := by
  unfold Path.bindField
  split
  · exact h.absent
  · rename_i hcontains
    have hpresent : v.isAbsent = false := Nonvalues.isAbsent_of_present (by simpa using hcontains)
    split
    · rename_i es
      exact h.insert (ht (.map es) rfl) hv hpresent name
    · exact h.insert h.empty hv hpresent name

/-- The slots of a sequence target. -/
theorem slots (h : Hereditary P) (ht : ∀ t ∈ target, P t) :
    ∀ u ∈ (target.bind Value.items?).getD [], P u := by
  intro u hu
  cases htarget : target.bind Value.items? with
  | none => simp [htarget] at hu
  | some items =>
    obtain ⟨t, rfl, hitems⟩ := Option.bind_eq_some_iff.1 htarget
    cases t with
    | seq items' =>
      cases hitems
      rw [htarget] at hu
      exact (h.seq _).1 (ht _ rfl) u hu
    | _ => cases hitems

theorem constructField (h : Hereditary P) (ht : ∀ t ∈ target, P t) (hv : P v) (name : String)
    (distribute : Bool) : P (Path.constructField ns name distribute target v) := by
  unfold Path.constructField
  split
  · exact h.absent
  · split
    · refine (h.seq _).2 fun u hu => ?_
      obtain ⟨i, hi, rfl⟩ := List.mem_mapIdx.1 hu
      refine h.bindField (fun t hslot => ?_) ((h.seq _).1 hv _ (List.getElem_mem hi)) name
      exact h.slots ht t (List.mem_of_getElem? hslot)
    · exact h.bindField ht hv name

theorem constructIndex (h : Hereditary P) (ht : ∀ t ∈ target, P t) (hv : P v) (slot : Int64) :
    P (Path.constructIndex ns slot target v) := by
  unfold Path.constructIndex
  split
  · exact h.absent
  · split
    · split
      · refine (h.seq _).2 fun u hu => ?_
        simp only [putSlot, List.mem_append, List.mem_cons, List.mem_replicate] at hu
        rcases hu with (hu | ⟨-, rfl⟩) | rfl | hu
        · exact h.slots ht u (List.mem_of_mem_take hu)
        · exact h.absent
        · exact hv
        · exact h.slots ht u (List.mem_of_mem_drop hu)
      · exact h.absent
    · exact h.absent

theorem constructEach (h : Hereditary P) (hv : P v) : P (Path.constructEach ns v) := by
  unfold Path.constructEach
  split
  · exact h.absent
  · split
    · exact hv
    · exact (h.seq _).2 (by simpa using hv)

theorem constructMerge (h : Hereditary P) (ht : ∀ t ∈ target, P t) {c : Context}
    (hc : ∀ u ∈ c, P u) (hv : P v) (prefer : Preference) :
    P (Path.constructMerge prefer c target v) := by
  refine h.shallowMerge hv (h.getD fun u hu => ?_) prefer
  rcases target with _ | t
  · exact hc u (List.mem_of_head? hu)
  · exact ht u hu

theorem constructMove (h : Hereditary P) (ht : ∀ t ∈ target, P t) {c : Context}
    (hc : ∀ u ∈ c, P u) (hv : P v) (afterEach : Bool) (m : Move) :
    P (Path.constructMove ns c afterEach target v m) := by
  cases m with
  | field name => exact h.constructField ht hv name afterEach
  | index slot => exact h.constructIndex ht hv slot
  | each => exact h.constructEach hv
  | merge prefer => exact h.constructMerge ht hc hv prefer
  | parent | root => exact hv

theorem construct (h : Hereditary P) (ht : ∀ t ∈ target, P t) {c : Context} (hc : ∀ u ∈ c, P u)
    (hv : P v) (moves : List Move) : P (Path.construct ns c target v moves) := by
  have hbelow (before : List Move) : P (Path.constructBelow ns c target v before moves) := by
    induction moves generalizing before with
    | nil => exact hv
    | cons m rest ih => exact h.constructMove (h.navigate ht before) hc (ih _) _ m
  exact hbelow []

end

end Reshape.Value.Hereditary
