import Reshape.Context
import Reshape.Nonvalues
import Reshape.Path.Basic

/-!
# Reading along a path

Each move reads one level of the current value. Descents push the value they leave onto the
context; parent and root moves take it up again.
-/

namespace Reshape

/-- The move of a step that is not a barrier. -/
def PathStep.move? : PathStep → Option Move
  | move m _ => some m
  | barrier _ => none

namespace Path

mutual

/-- The entry under `name`; a sequence is read item by item. -/
def extractField (name : String) : Value → Value
  | .map entries => (Entries.get? entries name).getD .absent
  | .seq items => .seq (extractFieldItems name items)
  | _ => .absent

def extractFieldItems (name : String) : List Value → List Value
  | [] => []
  | v :: rest => extractField name v :: extractFieldItems name rest

end

def extractIndex (v : Value) (slot : Int64) : Value :=
  (v.getIndex? slot.toInt).getD .absent

/-- Forces a sequence. A sequence loses one level of nesting and its nonvalues; a nonvalue behind a
key that was missing becomes an empty sequence and stays absent elsewhere. -/
def extractEach (ns : Nonvalues) (afterMissing : Bool) : Value → Value
  | .seq items => .seq ((items.flatMap Value.toItems).filter (!ns.contains ·))
  | v =>
    if ns.contains v then if afterMissing then .seq [] else .absent
    else .seq [v]

/-- A value being read, the context it was reached in, and whether the last move met a missing
key. -/
structure Reading where
  value : Value
  context : Context
  missing : Bool := false

/-- Goes down from the current value to `next`. -/
def Reading.descend (ns : Nonvalues) (r : Reading) (next : Value) : Reading where
  value := next
  context := r.context.push r.value
  missing := !ns.contains r.value && ns.contains next

def Reading.step (ns : Nonvalues) (r : Reading) : Move → Reading
  | .field name => r.descend ns (extractField name r.value)
  | .index slot => r.descend ns (extractIndex r.value slot)
  | .each => { value := extractEach ns r.missing r.value, context := r.context }
  | .parent =>
    match r.context.pop? with
    | some (v, below) => { value := v, context := below }
    | none => { value := .absent, context := r.context }
  | .root => { value := r.context.bottom?.getD r.value, context := [] }
  | .merge _ => { value := r.value, context := r.context }

/-- The value at the end of the moves, and the context there. -/
def extract (ns : Nonvalues) (moves : List Move) (v : Value) (c : Context) : Value × Context :=
  let r := moves.foldl (Reading.step ns) { value := v, context := c }
  (r.value, r.context)

end Path

/-! ### Targets -/

/-- The part of a target that belongs below a move; moves that name no key or slot stay where they
are. -/
def Move.navigate (target : Value) : Move → Option Value
  | field name => present (Path.extractField name target)
  | index slot => present (Path.extractIndex target slot)
  | _ => some target
where
  present (v : Value) : Option Value := if v.isAbsent then none else some v

namespace Path

/-- Follows the keyed moves of a path into a target. -/
def navigate (target : Value) (moves : List Move) : Option Value :=
  moves.foldl (fun t m => t.bind (m.navigate ·)) (some target)

@[simp] theorem navigate_nil (target : Value) : navigate target [] = some target := rfl

@[simp] theorem navigate_singleton (target : Value) (m : Move) :
    navigate target [m] = m.navigate target := rfl

private theorem foldl_navigate_none (moves : List Move) :
    moves.foldl (fun t m => t.bind (m.navigate ·)) none = none := by
  induction moves with
  | nil => rfl
  | cons m rest ih => simpa using ih

theorem navigate_append (target : Value) (p q : List Move) :
    navigate target (p ++ q) = (navigate target p).bind (navigate · q) := by
  simp only [navigate, List.foldl_append]
  cases p.foldl (fun t m => t.bind (m.navigate ·)) (some target) with
  | none => exact foldl_navigate_none q
  | some t => rfl

end Path

end Reshape
