/-!
# Directions and preferences

A mapping runs forward, from the source shape to the mapped one, or in reverse. Merges that meet
one key on both sides keep the side that a `Preference` names.
-/

namespace Reshape

inductive Direction where
  | forward
  | reverse
deriving DecidableEq, Inhabited

namespace Direction

def opposite : Direction → Direction
  | forward => reverse
  | reverse => forward

@[simp] theorem opposite_opposite (d : Direction) : d.opposite.opposite = d := by
  cases d <;> rfl

@[simp] theorem opposite_ne_self (d : Direction) : d.opposite ≠ d := by
  cases d <;> decide

def isReverse : Direction → Bool
  | forward => false
  | reverse => true

/-- The opposite direction when `flip` is set. -/
def flippedBy (d : Direction) (flip : Bool) : Direction :=
  if flip then d.opposite else d

/-- Does a restriction to `only` admit `d`? No restriction admits both directions. -/
def admits (only : Option Direction) (d : Direction) : Bool :=
  match only with
  | none => true
  | some o => o == d

/-- The short word for a direction. -/
def word : Direction → String
  | forward => "fwd"
  | reverse => "rev"

end Direction

/-- The side that wins a merge conflict: the value being merged, or what it is merged with. -/
inductive Preference where
  | current
  | target
deriving DecidableEq, Inhabited

end Reshape
