import Reshape.Json.Basic

/-!
# Faults

What can go wrong. Definitions fail when they are compiled, transforms when they run; missing data
never fails.
-/

namespace Reshape

inductive Fault where
  /-- A definition that cannot be compiled. -/
  | definition (message : String)
  /-- A name that is not registered, with the kind of thing it should name. -/
  | unknown (kind name : String)
  /-- A failure of a transform. -/
  | transform (name message : String)
  /-- A synchronous run that met an unfinished transform. -/
  | suspended (reason : String)
  /-- A failure to read or write a document. -/
  | document (message : String)
  | internal (message : String)
deriving DecidableEq, Inhabited

namespace Fault

def message : Fault → String
  | definition m => "definition error: " ++ m
  | unknown kind name => "unknown " ++ kind ++ " '" ++ name ++ "'"
  | transform name m => "transform '" ++ name ++ "' failed: " ++ m
  | suspended reason => "run suspended: " ++ reason
  | document m => "serialization error: " ++ m
  | internal m => "internal error: " ++ m

/-- The fault of a synchronous run that a suspended transform holds up. -/
def unfinished : Fault :=
  suspended "an async transform did not complete; use run_async"

/-- Is this a fault that compiling a definition raises? -/
def isCompileFault : Fault → Bool
  | definition _ | unknown _ _ => true
  | _ => false

/-! ### Faults as documents -/

/-- A fault as a document: one key for its kind, and its contents under it. -/
def toJson : Fault → Json
  | definition m => .obj [("Definition", .obj [("message", .str m)])]
  | unknown kind name => .obj [("Unknown", .obj [("kind", .str kind), ("name", .str name)])]
  | transform name m =>
    .obj [("Transform", .obj [("transformer", .str name), ("message", .str m)])]
  | suspended reason => .obj [("Suspended", .str reason)]
  | document m => .obj [("Serde", .str m)]
  | internal m => .obj [("Internal", .str m)]

/-- The named text fields of a record; further keys are ignored. -/
private def fields? (names : List String) : Json → Option (List String)
  | .obj entries => names.mapM fun n => (Entries.get? entries n).bind Json.str?
  | _ => none

def ofJson? : Json → Option Fault
  | .obj [(kind, contents)] =>
    match kind with
    | "Definition" =>
      match fields? ["message"] contents with
      | some [m] => some (definition m)
      | _ => none
    | "Unknown" =>
      match fields? ["kind", "name"] contents with
      | some [k, n] => some (unknown k n)
      | _ => none
    | "Transform" =>
      match fields? ["transformer", "message"] contents with
      | some [n, m] => some (transform n m)
      | _ => none
    | "Suspended" => contents.str?.map suspended
    | "Serde" => contents.str?.map document
    | "Internal" => contents.str?.map internal
    | _ => none
  | _ => none

end Fault

end Reshape
