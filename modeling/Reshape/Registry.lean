import Reshape.Pipeline.Basic

/-!
# Registries

The names that a definition may use: factories that make transforms from the properties of an
operation, and the definitions of named pipelines.
-/

namespace Reshape

/-- Makes a transform from properties, or refuses them. -/
abbrev Factory (ω : Type) := Value → Except Fault (Transform ω)

structure Registry (ω : Type) where
  transformers : Entries (Factory ω) := []
  pipelines : Entries Json := []

namespace Registry

variable {ω : Type}

def registerTransformer (r : Registry ω) (name : String) (factory : Factory ω) : Registry ω :=
  { r with transformers := r.transformers.insert name factory }

/-- Registers one transform, whatever the properties. -/
def registerTransform (r : Registry ω) (name : String) (transform : Transform ω) : Registry ω :=
  r.registerTransformer name fun _ => .ok transform

def registerPipeline (r : Registry ω) (name : String) (definition : Json) : Registry ω :=
  { r with pipelines := r.pipelines.insert name definition }

def transformer (r : Registry ω) (name : String) : Except Fault (Factory ω) :=
  match r.transformers.get? name with
  | some factory => .ok factory
  | none => .error (.unknown "transformer" name)

def createTransform (r : Registry ω) (name : String) (props : Value) :
    Except Fault (Transform ω) :=
  match r.transformer name with
  | .ok factory => factory props
  | .error e => .error e

def pipeline (r : Registry ω) (name : String) : Except Fault Json :=
  match r.pipelines.get? name with
  | some definition => .ok definition
  | none => .error (.unknown "pipeline" name)

def hasTransformer (r : Registry ω) (name : String) : Bool :=
  r.transformers.contains name

def hasPipeline (r : Registry ω) (name : String) : Bool :=
  r.pipelines.contains name

private def sortedNames (names : List String) : List String :=
  names.mergeSort fun a b => !decide (b < a)

def transformerNames (r : Registry ω) : List String :=
  sortedNames r.transformers.keys

def pipelineNames (r : Registry ω) : List String :=
  sortedNames r.pipelines.keys

/-- A name between quotes. Control characters are escaped by a letter where they have one, else by
their hexadecimal code. -/
def quoteName (name : String) : String :=
  let escape := fun c =>
    if c = '"' then ['\\', '"']
    else if c = '\\' then ['\\', '\\']
    else if c = '\n' then ['\\', 'n']
    else if c = '\r' then ['\\', 'r']
    else if c = '\t' then ['\\', 't']
    else if c.toNat = 0 then ['\\', '0']
    else if c.toNat < 32 || c.toNat = 127 then
      ['\\', 'u', '\x7b'] ++ Nat.toDigits 16 c.toNat ++ ['\x7d']
    else [c]
  String.ofList ('"' :: name.toList.flatMap escape ++ ['"'])

/-- The registered names, sorted. -/
def summary (r : Registry ω) : String :=
  let names := fun ns => "[" ++ ", ".intercalate (ns.map quoteName) ++ "]"
  "\x7b transformers: " ++ names r.transformerNames ++ ", pipelines: " ++ names r.pipelineNames ++
    " \x7d"

end Registry

end Reshape
