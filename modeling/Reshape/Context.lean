import Reshape.Value.Basic

/-!
# Contexts

The values that a run has descended from, innermost first. Parent steps climb it frame by frame,
root steps go to its lowest frame, the input of the run.
-/

namespace Reshape

abbrev Context := List Value

namespace Context

def push (c : Context) (v : Value) : Context :=
  v :: c

/-- The innermost frame and the context below it. -/
def pop? : Context → Option (Value × Context)
  | [] => none
  | v :: below => some (v, below)

def peek? (c : Context) : Option Value :=
  c.head?

def bottom? (c : Context) : Option Value :=
  c.getLast?

@[simp] theorem pop?_push (c : Context) (v : Value) : (c.push v).pop? = some (v, c) := rfl

end Context

end Reshape
