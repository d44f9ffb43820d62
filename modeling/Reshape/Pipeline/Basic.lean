import Reshape.Path.Basic
import Reshape.State
import Reshape.Task

/-!
# Pipelines

The compiled form of a definition: a list of steps, each of them a path step, a shape that assembles
a map from the results of its fields, or an operation. The host plugs in transforms, and generators
of values, that may use and change its state `ω`.
-/

namespace Reshape

/-- A function of the host. A synchronous one cannot suspend. -/
inductive Transform (ω : Type) where
  | sync (f : Value → State → ω → Except Fault Value × ω)
  | async (f : Value → State → Task ω Value)

namespace Transform

variable {ω : Type}

def isAsync : Transform ω → Bool
  | sync _ => false
  | async _ => true

/-- A function of the value alone. -/
def pure (f : Value → Value) : Transform ω :=
  sync fun v _ w => (.ok (f v), w)

def call : Transform ω → Value → State → Task ω Value
  | sync f, v, s => Task.ofState (f v s)
  | async f, v, s => f v s

end Transform

/-- A transform under the name and with the properties that the definition gives it. -/
structure Call (ω : Type) where
  name : String
  props : Value
  transform : Transform ω

/-- Where a value step takes its value from. Generators are told apart by their identity. -/
inductive Source (ω : Type) where
  | constant (v : Value)
  | generator (identity : Nat) (next : ω → Value × ω)

/-- What every operation can be told: to treat a sequence item by item, and to act in one effective
direction only. -/
structure Flags where
  iterate : Bool := false
  only : Option Direction := none
deriving DecidableEq, Inhabited

/-- One field of a shape: the key as the definition writes it, and steps of type `σ` that compute
the value and set it on the key. -/
structure Field (σ : Type) where
  key : String
  steps : List σ
  only : Option Direction := none

structure Shape (σ : Type) where
  fields : List (Field σ)
  iterate : Bool := false
  flip : Bool := false
  noDefaults : Bool := false
  always : Bool := false
  only : Option Direction := none

/-- Operations over sub-pipelines with steps of type `σ`. -/
inductive Op (ω σ : Type) where
  | transform (call : Call ω)
  /-- Keeps the items that the transform finds truthy. -/
  | filter (call : Call ω)
  /-- Supplies a value; a fixed one also where defaults are left out. -/
  | value (source : Source ω) (fixed : Bool)
  /-- The first alternative that has a value. -/
  | alt (alternatives : List (List σ))
  /-- A named pipeline. -/
  | apply (name : String) (steps : List σ)
  /-- Finds items of the sequence that `array` reads from the root input, by what `key` reads from
  each of them. -/
  | lookup (array key : List σ)
  /-- Joins the sequences that the pipelines produce. -/
  | concat (pipelines : List (List σ))

inductive Step (ω : Type) where
  | path (step : PathStep)
  | shape (shape : Shape (Step ω))
  | op (op : Op ω (Step ω)) (flags : Flags)

abbrev Pipeline (ω : Type) := List (Step ω)

variable {ω : Type}

namespace Step

/-- A value step with no flags that supplies a constant. -/
def constant (v : Value) : Step ω :=
  op (.value (.constant v) false) {}

def ofPath (steps : List PathStep) : Pipeline ω :=
  steps.map path

def mergePreference : Step ω → Option Preference
  | path p => p.mergePreference
  | _ => none

end Step

namespace Field

/-- The preference of a field whose last step is a merge. The shape itself carries out that merge,
over the whole map. -/
def merge (f : Field (Step ω)) : Option Preference :=
  f.steps.getLast?.bind Step.mergePreference

/-- The steps that a run of the field takes: all but a closing merge. -/
def runSteps (f : Field (Step ω)) : Pipeline ω :=
  if f.merge.isSome then f.steps.dropLast else f.steps

end Field

/-! ### Shapes that run on nonvalues -/

mutual

/-- Is this, or does it contain, a shape that runs on nonvalues? What lookups read does not
count. -/
def Step.hasAlways : Step ω → Bool
  | .path _ => false
  | .shape s => shapeHasAlways s
  | .op o _ => opHasAlways o

def shapeHasAlways : Shape (Step ω) → Bool
  | ⟨fields, _, _, _, always, _⟩ => always || fieldsHaveAlways fields

def fieldsHaveAlways : List (Field (Step ω)) → Bool
  | [] => false
  | ⟨_, steps, _⟩ :: rest => stepsHaveAlways steps || fieldsHaveAlways rest

def opHasAlways : Op ω (Step ω) → Bool
  | .alt ps | .concat ps => pipelinesHaveAlways ps
  | .apply _ steps => stepsHaveAlways steps
  | .transform _ | .filter _ | .value _ _ | .lookup _ _ => false

def pipelinesHaveAlways : List (List (Step ω)) → Bool
  | [] => false
  | p :: rest => stepsHaveAlways p || pipelinesHaveAlways rest

def stepsHaveAlways : List (Step ω) → Bool
  | [] => false
  | s :: rest => s.hasAlways || stepsHaveAlways rest

end

def Pipeline.hasAlways (p : Pipeline ω) : Bool :=
  stepsHaveAlways p

end Reshape
