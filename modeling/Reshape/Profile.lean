import Reshape.Direction.Word
import Reshape.State

/-!
# Run profiles

Run options kept in a document: an object with some of the fields of the options, or an array of
the first of them in order. Fields that are missing keep their default, unknown keys are ignored,
and only the target may be null.
-/

namespace Reshape.Options

private def boolOf? : Json → Option Bool
  | .bool b => some b
  | _ => none

private def nonvaluesOf? : Json → Option Nonvalues
  | .arr items => some (.ofJsonList items)
  | _ => none

private def targetOf : Json → Option Value
  | .null => none
  | j => some (.ofJson j)

/-- Sets one field. -/
def setField? (o : Options) (field : String) (j : Json) : Option Options :=
  match field with
  | "direction" => (Direction.ofJson? j).map fun direction => { o with direction }
  | "target" => some { o with target := targetOf j }
  | "nonvalues" => (nonvaluesOf? j).map fun nonvalues => { o with nonvalues }
  | "flip" => (boolOf? j).map fun flip => { o with flip }
  | "noDefaults" => (boolOf? j).map fun noDefaults => { o with noDefaults }
  | _ => some o

/-- The fields in the order of a profile that is an array. -/
def fieldOrder : List String :=
  ["direction", "target", "nonvalues", "flip", "noDefaults"]

def setFields? (o : Options) (fields : List (String × Json)) : Option Options :=
  fields.foldlM (fun o (field, j) => o.setField? field j) o

def ofJson? : Json → Option Options
  | .obj entries => setFields? {} entries
  | .arr items =>
    if items.length ≤ fieldOrder.length then setFields? {} (fieldOrder.zip items) else none
  | _ => none

end Reshape.Options
