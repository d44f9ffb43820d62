import Reshape.Definition.Keys
import Reshape.Fault
import Reshape.Json.Reader
import Reshape.Text.Blank
import Reshape.Yaml.Document

/-!
# Definition documents

Reading a definition from text. A string that is a variable reference as a whole is replaced by the
variable, and every dollar key without a meaning is reported, since compiling ignores it.
-/

namespace Reshape.Definition

inductive Format where
  | json
  | yaml
deriving DecidableEq

namespace Format

/-- Texts that begin like a JSON object, array or string are JSON, all others YAML. -/
def sniff (source : String) : Format :=
  match Text.trimStart source.toList with
  | c :: _ => if c = '\x7b' || c = '[' || c = '"' then json else yaml
  | [] => yaml

/-- The extension of a file name: what follows its last dot, unless that is its first
character. -/
def extension (fileName : String) : String :=
  let name := (fileName.toList.reverse.takeWhile (· != '/')).reverse
  let behind := (name.reverse.takeWhile (· != '.')).reverse
  if behind.length + 1 < name.length then String.ofList behind else ""

/-- The format that a file name asks for; other names leave it to the text. -/
def ofFileName? (fileName : String) : Option Format :=
  let ext := (extension fileName).toLower
  if ext = "json" then some json
  else if ext = "yaml" || ext = "yml" then some yaml
  else none

end Format

/-- What can be wrong with a definition document. -/
inductive Unreadable where
  | badText (format : Format)
  | noFile
  | undefinedVariable (name : String)
  | unknownKeys (warnings : List String)

namespace Unreadable

def message : Unreadable → String
  | badText .json => "Invalid JSON"
  | badText .yaml => "Invalid YAML"
  | noFile => "cannot read"
  | undefinedVariable name => "Undefined variable: " ++ name
  | unknownKeys warnings => "; ".intercalate warnings

def fault (u : Unreadable) : Fault :=
  .definition u.message

end Unreadable

/-- How to read definitions. A strict reader refuses what others warn about. -/
structure Reader where
  strict : Bool := false
  allowVariables : Bool := true
  vars : Entries Json := []

/-- A definition with the warnings about it. -/
structure Document where
  definition : Json
  warnings : List String

/-- The name in a string that is a variable reference. -/
def reference? (s : String) : Option String :=
  match s.toList with
  | '$' :: '\x7b' :: rest =>
    if rest.getLast? == some '\x7d' then some (String.ofList rest.dropLast) else none
  | _ => none

mutual

/-- Replaces the variable references in a document. What a variable stands for is not searched
again, and keys are no references. -/
def substitute (vars : Entries Json) : Json → Except Unreadable Json
  | .str s =>
    match reference? s with
    | none => .ok (.str s)
    | some name =>
      match vars.get? name with
      | some j => .ok j
      | none => .error (.undefinedVariable name)
  | .arr items => .arr <$> substituteItems vars items
  | .obj entries => .obj <$> substituteEntries vars entries
  | scalar => .ok scalar

def substituteItems (vars : Entries Json) : List Json → Except Unreadable (List Json)
  | [] => .ok []
  | j :: rest => do
    let first ← substitute vars j
    let more ← substituteItems vars rest
    .ok (first :: more)

def substituteEntries (vars : Entries Json) :
    List (String × Json) → Except Unreadable (List (String × Json))
  | [] => .ok []
  | (k, j) :: rest => do
    let first ← substitute vars j
    let more ← substituteEntries vars rest
    .ok ((k, first) :: more)

end

/-- Is this a dollar key without a meaning? -/
def isIgnoredKey (key : String) : Bool :=
  isDollarKey key && !isKnownKey key

def warning (key place : String) : String :=
  "unknown key '" ++ key ++ "' at '" ++ place ++ "' is ignored"

mutual

/-- One warning for each ignored key, in document order. The place of a key is the path of keys and
indices to the object that holds it. -/
def warnings (place : String) : Json → List String
  | .obj entries => entryWarnings place entries
  | .arr items => itemWarnings place 0 items
  | _ => []

def itemWarnings (place : String) (index : Nat) : List Json → List String
  | [] => []
  | j :: rest => warnings (place ++ "/" ++ toString index) j ++ itemWarnings place (index + 1) rest

def entryWarnings (place : String) : List (String × Json) → List String
  | [] => []
  | (k, j) :: rest =>
    (if isIgnoredKey k then [warning k place] else []) ++ warnings (place ++ "/" ++ k) j ++
      entryWarnings place rest

end

namespace Reader

/-- Settles the variables and the warnings of a document that has been read. -/
def finish (r : Reader) (raw : Json) : Except Unreadable Document := do
  let definition ← if r.allowVariables then substitute r.vars raw else .ok raw
  let ws := warnings "" definition
  if r.strict && !ws.isEmpty then .error (.unknownKeys ws)
  else .ok { definition, warnings := ws }

def readAs (r : Reader) (format : Format) (source : String) : Except Unreadable Document :=
  let raw := match format with
    | .json => Json.read? source
    | .yaml => Yaml.read? source
  match raw with
  | some j => r.finish j
  | none => .error (.badText format)

/-- Reads a text in the format that it looks like. -/
def read (r : Reader) (source : String) : Except Unreadable Document :=
  r.readAs (.sniff source) source

/-- Reads the contents of a file, if it has any, in the format that its name asks for. -/
def readNamed (r : Reader) (fileName : String) (contents : Option String) :
    Except Unreadable Document :=
  match contents with
  | none => .error .noFile
  | some source => r.readAs ((Format.ofFileName? fileName).getD (.sniff source)) source

end Reader

end Reshape.Definition
