import Reshape.Direction.Word
import Reshape.Path.Basic
import Reshape.Value.Json

/-!
# Path steps in documents

A step as a record: an object whose `op` names the kind of step, or an array with the kind first
and the fields of that kind in order. Unknown keys of an object are ignored.
-/

namespace Reshape.PathStep

/-- The fields of each kind of step, in order. -/
def fieldsOf? : String → Option (List String)
  | "field" => some ["name", "inverted"]
  | "index" => some ["index", "inverted"]
  | "arrayMark" | "parent" | "root" | "mergeDot" | "mergeAll" => some ["inverted"]
  | "barrier" => some ["direction"]
  | _ => none

private def slotOf? : Json → Option Int64
  | .int n => if fitsInt64 n then some (.ofInt n) else none
  | _ => none

private def flagOf? : Json → Option Bool
  | .bool b => some b
  | _ => none

/-- The direction that a barrier blocks. Inside a record its word may also bind an empty object. -/
private def blocksOf? : Json → Option Direction
  | .obj [(word, .obj [])] => Direction.ofWord? word
  | j => Direction.ofJson? j

/-- A step of the given kind, its fields in order. -/
def ofFields? (kind : String) (fields : List Json) : Option PathStep :=
  let plain := fun m inverted => (flagOf? inverted).map (move m)
  match kind, fields with
  | "field", [name, inverted] => name.str?.bind fun n => plain (.field n) inverted
  | "index", [slot, inverted] => (slotOf? slot).bind fun n => plain (.index n) inverted
  | "arrayMark", [inverted] => plain .each inverted
  | "parent", [inverted] => plain .parent inverted
  | "root", [inverted] => plain .root inverted
  | "mergeDot", [inverted] => plain (.merge .current) inverted
  | "mergeAll", [inverted] => plain (.merge .target) inverted
  | "barrier", [blocks] => (blocksOf? blocks).map barrier
  | _, _ => none

def ofJson? : Json → Option PathStep
  | .obj entries => do
    let kind ← (Entries.get? entries "op").bind Json.str?
    let names ← fieldsOf? kind
    let fields ← names.mapM (Entries.get? entries)
    ofFields? kind fields
  | .arr (.str kind :: fields) => ofFields? kind fields
  | _ => none

def toJson : PathStep → Json
  | move m inverted =>
    let record := fun (kind : String) (fields : List (String × Json)) =>
      Json.obj (("op", .str kind) :: fields ++ [("inverted", .bool inverted)])
    match m with
    | .field name => record "field" [("name", .str name)]
    | .index slot => record "index" [("index", .int slot.toInt)]
    | .each => record "arrayMark" []
    | .parent => record "parent" []
    | .root => record "root" []
    | .merge .current => record "mergeDot" []
    | .merge .target => record "mergeAll" []
  | barrier blocks => .obj [("op", .str "barrier"), ("direction", blocks.toJson)]

end Reshape.PathStep
