import Reshape.Entries
import Reshape.Instant

/-!
# Values

The nested datum that every mapping reads and produces. Absence is a value of its own, apart from
an explicit null; a slot of a sequence that holds it is a hole.
-/

namespace Reshape

inductive Value where
  | absent
  | null
  | bool (b : Bool)
  | int (n : Int64)
  | float (x : Float)
  | str (s : String)
  | date (t : Instant)
  | seq (items : List Value)
  | map (entries : List (String × Value))
deriving Inhabited

namespace Value

def isAbsent : Value → Bool
  | absent => true
  | _ => false

def isSeq : Value → Bool
  | seq _ => true
  | _ => false

def isMap : Value → Bool
  | map _ => true
  | _ => false

theorem exists_entries {m : Value} (h : m.isMap = true) : ∃ es, m = map es := by
  cases m with
  | map es => exact ⟨es, rfl⟩
  | _ => cases h

def str? : Value → Option String
  | str s => some s
  | _ => none

def items? : Value → Option (List Value)
  | seq items => some items
  | _ => none

/-- An integer as the double nearest to it. -/
def ofInt64 (n : Int64) : Float :=
  Float.ofInt n.toInt

def number? : Value → Option Float
  | int n => some (ofInt64 n)
  | float x => some x
  | _ => none

/-- The truth of a value as the verdict of a filter. -/
def isTruthy : Value → Bool
  | absent | null => false
  | bool b => b
  | int n => n != 0
  | float x => x != 0 && !x.isNaN
  | str s => s != ""
  | date _ | seq _ | map _ => true

/-- The entry under `key`; only maps have entries. -/
def get? : Value → String → Option Value
  | map es, key => Entries.get? es key
  | _, _ => none

/-- The slot that `index` names in a sequence of `size` slots, negative indices counting from the
end. -/
def slot? (size : Nat) (index : Int) : Option Nat :=
  match index with
  | .ofNat n => if n < size then some n else none
  | .negSucc n => if n < size then some (size - (n + 1)) else none

def getIndex? : Value → Int → Option Value
  | seq items, index => (slot? items.length index).bind (items[·]?)
  | _, _ => none

/-- The items of a sequence; anything else is an item of its own. -/
def toItems : Value → List Value
  | seq items => items
  | v => [v]

end Value

end Reshape
