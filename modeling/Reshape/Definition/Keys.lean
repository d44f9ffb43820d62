import Reshape.Direction

/-!
# Keys with a meaning

A definition gives meaning to some of the keys that start with a dollar sign: markers, which make
an object an operation, and control keys, which steer shapes and operations.
-/

namespace Reshape

/-- The markers, in the order in which an object is searched for them. -/
inductive Marker where
  | transform
  | filter
  | value
  | fixed
  | alt
  | apply
  | lookup
  | concat
deriving DecidableEq, Inhabited

namespace Marker

def all : List Marker :=
  [transform, filter, value, fixed, alt, apply, lookup, concat]

def key : Marker → String
  | transform => "$transform"
  | filter => "$filter"
  | value => "$value"
  | fixed => "$fixed"
  | alt => "$alt"
  | apply => "$apply"
  | lookup => "$lookup"
  | concat => "$concat"

end Marker

def controlKeys : List String :=
  ["$iterate", "$flip", "$modify", "$direction", "$alwaysApply", "$noDefaults"]

def isKnownKey (key : String) : Bool :=
  (Marker.all.map Marker.key).contains key || controlKeys.contains key

/-- Does a key start with a dollar sign? Such keys never name data. -/
def isDollarKey (key : String) : Bool :=
  key.toList.head? == some '$'

end Reshape
