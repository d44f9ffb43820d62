import Reshape.Definition.Compile
import Reshape.Definition.Document
import Reshape.Pipeline.Run
import Reshape.Pipeline.Text

/-!
# Mappers

A compiled definition with default options, for callers that hold documents.
-/

namespace Reshape

structure Mapper (ω : Type) where
  pipeline : Pipeline ω
  defaults : Options := {}

namespace Mapper

variable {ω : Type}

def ofDefinition (voc : Vocabulary ω) (definition : Json) : Except Fault (Mapper ω) :=
  match compile voc definition with
  | .ok pipeline => .ok { pipeline }
  | .error e => .error e

/-- Compiles the definition in a text. -/
def ofSource (voc : Vocabulary ω) (source : String) : Except Fault (Mapper ω) :=
  match ({} : Definition.Reader).read source with
  | .ok document => ofDefinition voc document.definition
  | .error u => .error u.fault

/-- A run over a value with options of its own. -/
def mapWith (m : Mapper ω) (async : Bool) (v : Value) (o : Options) (w : ω) :
    Except Fault Value × ω :=
  if async then m.pipeline.runAsync v o w else m.pipeline.run v o w

/-- A run over a document with the default options, in the given direction. Absence becomes
null. -/
def map (m : Mapper ω) (d : Direction) (async : Bool) (data : Json) (w : ω) :
    Except Fault Json × ω :=
  let (result, w) := m.mapWith async (.ofJson data) { m.defaults with direction := d } w
  (result.map Value.toJson, w)

end Mapper

end Reshape
