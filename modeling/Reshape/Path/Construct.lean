import Reshape.Path.Extract
import Reshape.Value.Merge

/-!
# Building along a path

Each move wraps the value built so far into one more level, on top of the target where the target
has that level already. The first move of a path ends up outermost.
-/

namespace Reshape.Path

/-- Binds `name` to `v` on top of a map target. -/
def bindField (ns : Nonvalues) (name : String) (target : Option Value) (v : Value) : Value :=
  if ns.contains v then .absent
  else match target with
    | some (.map entries) => .map (Entries.insert entries name v)
    | _ => .map [(name, v)]

/-- Binds `name` to a value, or to each item of a sequence when the binding is distributed; an item
goes on top of the same slot of a sequence target. -/
def constructField (ns : Nonvalues) (name : String) (distribute : Bool) (target : Option Value)
    (v : Value) : Value :=
  if ns.contains v then .absent
  else match distribute, v with
    | true, .seq items =>
      let slots := (target.bind Value.items?).getD []
      .seq (items.mapIdx fun i item => bindField ns name slots[i]? item)
    | _, v => bindField ns name target v

/-- The last slot that a path can build. -/
def lastSlot : Nat := 1 <<< 20

/-- Puts `v` into a slot; the slots between the end of the sequence and it are holes. -/
def putSlot (items : List Value) (slot : Nat) (v : Value) : List Value :=
  items.take slot ++ List.replicate (slot - items.length) .absent ++ v :: items.drop (slot + 1)

/-- Places a value in a slot on top of a sequence target. Slots that count from the end or lie
beyond the last one build nothing. -/
def constructIndex (ns : Nonvalues) (slot : Int64) (target : Option Value) (v : Value) : Value :=
  if ns.contains v then .absent
  else match slot.toInt with
    | .ofNat n =>
      if n ≤ lastSlot then .seq (putSlot ((target.bind Value.items?).getD []) n v) else .absent
    | .negSucc _ => .absent

def constructEach (ns : Nonvalues) (v : Value) : Value :=
  if ns.contains v then .absent
  else match v with
    | .seq items => .seq items
    | v => .seq [v]

/-- Merges with the target, or with the innermost frame of the context where there is none. -/
def constructMerge (prefer : Preference) (c : Context) (target : Option Value) (v : Value) :
    Value :=
  v.shallowMerge ((target <|> c.peek?).getD .absent) prefer

/-- One move: `v` is what belongs below it, `target` what is there already, and `afterEach` tells
whether the move before it forces a sequence. -/
def constructMove (ns : Nonvalues) (c : Context) (afterEach : Bool) (target : Option Value)
    (v : Value) : Move → Value
  | .field name => constructField ns name afterEach target v
  | .index slot => constructIndex ns slot target v
  | .each => constructEach ns v
  | .merge prefer => constructMerge prefer c target v
  | .parent | .root => v

/-- Builds `v` below the moves that stand behind `before` in a path, the last of them first. The
target of a move is looked up anew each time, from the whole target down the moves before it. -/
def constructBelow (ns : Nonvalues) (c : Context) (target : Option Value) (v : Value)
    (before : List Move) : List Move → Value
  | [] => v
  | m :: rest =>
    constructMove ns c (before.getLast? == some .each) (target.bind (navigate · before))
      (constructBelow ns c target v (before ++ [m]) rest) m

/-- Builds `v` below all the moves of a path. -/
def construct (ns : Nonvalues) (c : Context) (target : Option Value) (v : Value)
    (moves : List Move) : Value :=
  constructBelow ns c target v [] moves

section
variable (ns : Nonvalues) (c : Context) (v : Value)

@[simp] theorem construct_nil (target : Option Value) : construct ns c target v [] = v := rfl

/-- Moves in front only narrow the target, unless a sequence mark comes right before. -/
theorem constructBelow_append {before after : List Move}
    (h : after = [] → before.getLast? ≠ some .each) (target : Option Value) (rest : List Move) :
    constructBelow ns c target v (before ++ after) rest =
      constructBelow ns c (target.bind (navigate · before)) v after rest := by
  induction rest generalizing after with
  | nil => rfl
  | cons m rest ih =>
    have hmark : ((before ++ after).getLast? == some .each) = (after.getLast? == some .each) := by
      cases hl : after.getLast? with
      | none =>
        obtain rfl := List.getLast?_eq_none_iff.1 hl
        simpa using h rfl
      | some l => simp [List.getLast?_append, hl]
    have hnav : target.bind (navigate · (before ++ after)) =
        (target.bind (navigate · before)).bind (navigate · after) := by
      cases target <;> simp [navigate_append]
    have ih := ih fun (e : after ++ [m] = []) => absurd e (by simp)
    simp only [constructBelow, hmark, hnav, List.append_assoc, ih]

/-- The moves behind come first. -/
theorem constructBelow_concat (target : Option Value) (before p q : List Move) :
    constructBelow ns c target v before (p ++ q) =
      constructBelow ns c target (constructBelow ns c target v (before ++ p) q) before p := by
  induction p generalizing before with
  | nil => simp [constructBelow]
  | cons m rest ih => simp [constructBelow, ih]

/-- Building below two paths in a row: the second is built first, on the part of the target that
the first one leads to. -/
theorem construct_append {p : List Move} (h : p.getLast? ≠ some .each) (target : Option Value)
    (q : List Move) :
    construct ns c target v (p ++ q) =
      construct ns c target (construct ns c (target.bind (navigate · p)) v q) p := by
  have hq := constructBelow_append ns c v (fun _ : ([] : List Move) = [] => h) target q
  rw [List.append_nil] at hq
  simp only [construct, constructBelow_concat, List.nil_append, hq]

/-- The move in front is made last, on top of the whole target. -/
theorem construct_cons {m : Move} (h : m ≠ .each) (target : Option Value) (rest : List Move) :
    construct ns c target v (m :: rest) =
      constructMove ns c false target
        (construct ns c (target.bind (m.navigate ·)) v rest) m := by
  have happ := construct_append ns c v (p := [m]) (by simpa using h) target rest
  simpa [construct, constructBelow] using happ

/-- A key behind a sequence mark is bound in every item. -/
theorem construct_each_field (name : String) (target : Option Value) (rest : List Move) :
    construct ns c target v (.each :: .field name :: rest) =
      constructEach ns (constructField ns name true target
        (construct ns c (target.bind (Move.navigate · (.field name))) v rest)) := by
  have happ := construct_append ns c v (p := [.each, .field name]) (by simp) target rest
  have hnav (t : Value) : navigate t [.each, .field name] = Move.navigate t (.field name) := rfl
  have hroot : target.bind (Move.navigate · .each) = target := by cases target <;> rfl
  simpa [construct, constructBelow, constructMove, hnav, hroot] using happ

end

end Reshape.Path
