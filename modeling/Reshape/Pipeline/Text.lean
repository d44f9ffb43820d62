import Reshape.Pipeline.Basic

/-!
# Pipelines as text

A one-line summary of a pipeline. Shapes show their fields; operations show what they name, or how
many pipelines they hold.
-/

namespace Reshape

variable {ω : Type}

/-- A list of texts between brackets. -/
def bracketed (opening : String) (texts : List String) (closing : String) : String :=
  opening ++ ", ".intercalate texts ++ closing

def Source.display : Source ω → String
  | .constant v => v.display
  | .generator _ _ => "<fn>"

mutual

def Step.display : Step ω → String
  | .path p => p.display
  | .shape sh => shapeDisplay sh
  | .op o _ => opDisplay o

def shapeDisplay : Shape (Step ω) → String
  | ⟨fields, _, _, _, _, _⟩ => bracketed "\x7b" (fieldDisplays fields) "\x7d"

def fieldDisplays : List (Field (Step ω)) → List String
  | [] => []
  | ⟨key, steps, _⟩ :: rest =>
    (key ++ ": " ++ bracketed "[" (stepDisplays steps) "]") :: fieldDisplays rest

def opDisplay : Op ω (Step ω) → String
  | .transform call => "$transform:" ++ call.name
  | .filter call => "$filter:" ++ call.name
  | .value source _ => "$value:" ++ source.display
  | .alt ps => "$alt[" ++ toString ps.length ++ "]"
  | .apply name _ => "$apply:" ++ name
  | .lookup array _ => "$lookup:" ++ bracketed "[" (stepDisplays array) "]"
  | .concat ps => "$concat[" ++ toString ps.length ++ "]"

def stepDisplays : List (Step ω) → List String
  | [] => []
  | s :: rest => s.display :: stepDisplays rest

end

def Pipeline.display (p : Pipeline ω) : String :=
  bracketed "[" (stepDisplays p) "]"

end Reshape
