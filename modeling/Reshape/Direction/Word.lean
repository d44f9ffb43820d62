import Reshape.Direction
import Reshape.Json.Basic

/-!
# Directions in documents

A document names a direction by its word, alone or as the only key of an object that binds it to
null.
-/

namespace Reshape.Direction

def ofWord? (word : String) : Option Direction :=
  if word = forward.word then some forward
  else if word = reverse.word then some reverse
  else none

def ofJson? : Json → Option Direction
  | .str word => ofWord? word
  | .obj [(word, .null)] => ofWord? word
  | _ => none

def toJson (d : Direction) : Json :=
  .str d.word

theorem ofJson?_toJson (d : Direction) : ofJson? d.toJson = some d := by
  cases d <;> decide

end Reshape.Direction
