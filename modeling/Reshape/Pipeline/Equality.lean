import Reshape.Pipeline.Basic

/-!
# Equality of pipelines

Pipelines are equal when they have equal steps. Transforms are told apart by name and properties
alone, so two compilations of one definition are equal; generators are equal only to themselves.
-/

namespace Reshape

variable {ω : Type}

def Call.eqv (a b : Call ω) : Bool :=
  a.name == b.name && a.props.eqv b.props

def Source.eqv : Source ω → Source ω → Bool
  | .constant a, .constant b => a.eqv b
  | .generator a _, .generator b _ => a == b
  | _, _ => false

mutual

def Step.eqv : Step ω → Step ω → Bool
  | .path a, .path b => a == b
  | .shape a, .shape b => shapeEqv a b
  | .op a f, .op b g => opEqv a b && f == g
  | _, _ => false

def shapeEqv : Shape (Step ω) → Shape (Step ω) → Bool
  | ⟨fs, iterate, flip, noDefaults, always, only⟩, b =>
    fieldsEqv fs b.fields && iterate == b.iterate && flip == b.flip &&
      noDefaults == b.noDefaults && always == b.always && only == b.only

def fieldsEqv : List (Field (Step ω)) → List (Field (Step ω)) → Bool
  | [], [] => true
  | ⟨key, steps, only⟩ :: as, b :: bs =>
    key == b.key && stepsEqv steps b.steps && only == b.only && fieldsEqv as bs
  | _, _ => false

def opEqv : Op ω (Step ω) → Op ω (Step ω) → Bool
  | .transform a, .transform b => a.eqv b
  | .filter a, .filter b => a.eqv b
  | .value a fixed, .value b fixed' => a.eqv b && fixed == fixed'
  | .alt a, .alt b => pipelinesEqv a b
  | .apply name a, .apply name' b => name == name' && stepsEqv a b
  | .lookup a k, .lookup b k' => stepsEqv a b && stepsEqv k k'
  | .concat a, .concat b => pipelinesEqv a b
  | _, _ => false

def pipelinesEqv : List (List (Step ω)) → List (List (Step ω)) → Bool
  | [], [] => true
  | a :: as, b :: bs => stepsEqv a b && pipelinesEqv as bs
  | _, _ => false

def stepsEqv : List (Step ω) → List (Step ω) → Bool
  | [], [] => true
  | a :: as, b :: bs => a.eqv b && stepsEqv as bs
  | _, _ => false

end

def Pipeline.eqv (a b : Pipeline ω) : Bool :=
  stepsEqv a b

end Reshape
