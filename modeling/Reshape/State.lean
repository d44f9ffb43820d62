import Reshape.Context
import Reshape.Direction
import Reshape.Nonvalues

/-!
# Run options and run state

`Options` is what a caller asks of a run; `State` is what each step of the run sees. A step acts in
the effective direction, the direction of the run turned once for every flip around the step.
-/

namespace Reshape

structure Options where
  direction : Direction := .forward
  target : Option Value := none
  nonvalues : Nonvalues := {}
  flip : Bool := false
  noDefaults : Bool := false
deriving Inhabited

structure State where
  direction : Direction := .forward
  flip : Bool := false
  /-- Are constants that are not fixed left out? -/
  noDefaults : Bool := false
  /-- Do operations run on nonvalues too? -/
  always : Bool := false
  nonvalues : Nonvalues := {}
  target : Option Value := none
  context : Context := []
deriving Inhabited

namespace State

def ofOptions (o : Options) : State where
  direction := o.direction
  flip := o.flip
  noDefaults := o.noDefaults
  nonvalues := o.nonvalues
  target := o.target

def effective (s : State) : Direction :=
  s.direction.flippedBy s.flip

def isReverse (s : State) : Bool :=
  s.effective.isReverse

def isNonvalue (s : State) (v : Value) : Bool :=
  s.nonvalues.contains v

def flipped (s : State) : State :=
  { s with flip := !s.flip }

def withTarget (s : State) (target : Option Value) : State :=
  { s with target }

theorem withTarget_eq_self {s : State} {target : Option Value} (h : s.target = target) :
    s.withTarget target = s := by
  rw [← h]
  rfl

def withContext (s : State) (context : Context) : State :=
  { s with context }

def pushContext (s : State) (v : Value) : State :=
  { s with context := s.context.push v }

/-- A forward state that shares nothing but the nonvalues, for what lookups read whatever the
direction around them. -/
def reader (s : State) : State :=
  { nonvalues := s.nonvalues }

end State

end Reshape
