import Reshape.Definition.Keys
import Reshape.Path.Notation
import Reshape.Registry

/-!
# Compiling definitions

A text is a path; an array is the pipeline of its items; an object with a marker is an operation and
any other object a shape; every other scalar is a constant. A field of a shape computes its value
and then sets it on its key, `compile value ++ invert (path key)`, so that one compiled form serves
both directions.

Named pipelines are compiled where they are applied. The names that are open at that point are out
of reach, so that the work ends, and a pipeline that would apply itself is refused.
-/

namespace Reshape

/-- The words that a definition may use: registered names, and one more word for each direction. -/
structure Vocabulary (ω : Type) where
  registry : Registry ω := {}
  forwardAlias : Option String := none
  reverseAlias : Option String := none

/-- What can be wrong with the operand of a marker. -/
inductive Malformed where
  | noTransformerName (marker : Marker) (operand : Json)
  | noAlternatives
  | noPipelineName
  | appliesItself (name : String)
  | noArrayPath
  | noKeyPath
  | noPipelines

namespace Malformed

def message : Malformed → String
  | noTransformerName marker operand =>
    marker.key ++ " expects a transformer name, got " ++ operand.compact
  | noAlternatives => "$alt expects an array of alternatives"
  | noPipelineName => "$apply expects a pipeline name"
  | appliesItself name => "pipeline '" ++ name ++ "' applies itself"
  | noArrayPath => "$lookup expects an array path"
  | noKeyPath => "$lookup requires a 'path' property"
  | noPipelines => "$concat expects an array of pipelines"

def fault (m : Malformed) : Fault :=
  .definition m.message

end Malformed

namespace Vocabulary

variable {ω : Type}

/-- The direction that a word names. The words of the language come before the aliases. -/
def direction? (voc : Vocabulary ω) (word : String) : Option Direction :=
  if word = "fwd" || word = "forward" then some .forward
  else if word = "rev" || word = "reverse" then some .reverse
  else if voc.forwardAlias = some word then some .forward
  else if voc.reverseAlias = some word then some .reverse
  else none

end Vocabulary

namespace Definition

variable {ω : Type}

/-- Is the control key set to `true`? -/
def flag (es : Entries Json) (key : String) : Bool :=
  (es.get? key).any Json.isTrue

def restriction (voc : Vocabulary ω) (es : Entries Json) : Option Direction :=
  ((es.get? "$direction").bind Json.str?).bind voc.direction?

def marker? (es : Entries Json) : Option Marker :=
  Marker.all.find? fun m => es.contains m.key

/-- The properties of an operation: its keys without a dollar sign. -/
def props (es : Entries Json) : Value :=
  .map (Value.ofEntries (es.filter fun b => !isDollarKey b.1))

/-- The steps that set a key: its path, inverted. A lone dot merges, and the value set wins. -/
def keySteps (key : String) : List PathStep :=
  if Text.trim key.toList = ['.'] then [.move (.merge .current) true]
  else (Path.tokenize key).map PathStep.invert

/-- The field of a shape that spreads what `steps` read over the result. It has no part in reverse
runs, where the input is the mapped side. -/
def spreadField (key : String) (steps : List PathStep) : Field (Step ω) where
  key := key
  steps := Step.ofPath (steps ++ [.move (.merge .current) true])
  only := some .forward

def spreadFields (es : Entries Json) : List (Field (Step ω)) :=
  match es.get? "$modify" with
  | some (.bool true) => [spreadField "." []]
  | some (.str path) => [spreadField path (Path.tokenize path)]
  | _ => []

/-- The transform that a marker names, with the properties beside the marker. -/
def call (voc : Vocabulary ω) (m : Marker) (operand : Json) (es : Entries Json) :
    Except Fault (Call ω) :=
  let name := match operand with
    | .str s => Text.trim s.toList
    | _ => []
  if name.isEmpty then .error (Malformed.noTransformerName m operand).fault
  else do
    let name := String.ofList name
    let transform ← voc.registry.createTransform name (props es)
    .ok { name, props := props es, transform }

def lookup (operand : Json) (es : Entries Json) : Except Fault (Op ω (Step ω)) :=
  match operand.str?, (es.get? "path").bind Json.str? with
  | none, _ => .error Malformed.noArrayPath.fault
  | some _, none => .error Malformed.noKeyPath.fault
  | some array, some key =>
    .ok (.lookup (Step.ofPath (Path.tokenize array)) (Step.ofPath (Path.tokenize key)))

mutual

/-- The steps of a definition, where `named` compiles a named pipeline. -/
def steps (voc : Vocabulary ω) (named : String → Except Fault (Pipeline ω)) :
    Json → Except Fault (Pipeline ω)
  | .str path => .ok (Step.ofPath (Path.tokenize path))
  | .arr items => joined voc named items
  | .obj es =>
    match marker? es with
    | some m => do
      let flags := { iterate := flag es "$iterate", only := restriction voc es }
      let operand := (Entries.get? es m.key).getD .null
      let op ← match m with
        | .transform => Op.transform <$> call voc m operand es
        | .filter => Op.filter <$> call voc m operand es
        | .value => .ok (.value (.constant (.ofJson operand)) false)
        | .fixed => .ok (.value (.constant (.ofJson operand)) true)
        | .alt =>
          Op.alt <$>
            (pipelinesAt voc named m.key es).getD (.error Malformed.noAlternatives.fault)
        | .apply =>
          match operand with
          | .str name => Op.apply name <$> named name
          | _ => .error Malformed.noPipelineName.fault
        | .lookup => lookup operand es
        | .concat =>
          Op.concat <$> (pipelinesAt voc named m.key es).getD (.error Malformed.noPipelines.fault)
      .ok [.op op flags]
    | none => do
      let fields ← keyedFields voc named es
      .ok [.shape {
        fields := spreadFields es ++ fields
        iterate := flag es "$iterate"
        flip := flag es "$flip"
        noDefaults := flag es "$noDefaults"
        always := flag es "$alwaysApply"
        only := restriction voc es }]
  | scalar => .ok [.constant (.ofJson scalar)]

/-- The items of an array, joined into one pipeline. -/
def joined (voc : Vocabulary ω) (named : String → Except Fault (Pipeline ω)) :
    List Json → Except Fault (Pipeline ω)
  | [] => .ok []
  | j :: rest => do
    let first ← steps voc named j
    let more ← joined voc named rest
    .ok (first ++ more)

/-- The items of an array, each a pipeline of its own. -/
def pipelines (voc : Vocabulary ω) (named : String → Except Fault (Pipeline ω)) :
    List Json → Except Fault (List (Pipeline ω))
  | [] => .ok []
  | j :: rest => do
    let first ← steps voc named j
    let more ← pipelines voc named rest
    .ok (first :: more)

/-- The pipelines in the array under `key`, if there is an array. -/
def pipelinesAt (voc : Vocabulary ω) (named : String → Except Fault (Pipeline ω)) (key : String) :
    List (String × Json) → Option (Except Fault (List (Pipeline ω)))
  | [] => none
  | (k, .arr items) :: rest =>
    if k = key then some (pipelines voc named items) else pipelinesAt voc named key rest
  | (k, _) :: rest => if k = key then none else pipelinesAt voc named key rest

/-- The fields of a shape, one for each key without a dollar sign. -/
def keyedFields (voc : Vocabulary ω) (named : String → Except Fault (Pipeline ω)) :
    List (String × Json) → Except Fault (List (Field (Step ω)))
  | [] => .ok []
  | (key, j) :: rest =>
    if isDollarKey key then keyedFields voc named rest
    else do
      let value ← steps voc named j
      let more ← keyedFields voc named rest
      .ok ({ key, steps := value ++ Step.ofPath (keySteps key) } :: more)

end

/-- The pipeline registered as `name`, compiled. Only the pipelines in `closed` can be applied; the
others are open around this one. -/
def namedPipeline (voc : Vocabulary ω) (closed : Entries Json) (name : String) :
    Except Fault (Pipeline ω) :=
  match _h : closed.get? name with
  | some definition => steps voc (namedPipeline voc (closed.erase name)) definition
  | none =>
    if voc.registry.hasPipeline name then .error (Malformed.appliesItself name).fault
    else .error (.unknown "pipeline" name)
termination_by closed.length
decreasing_by exact Entries.length_erase_lt _h

end Definition

/-- Compiles a definition. -/
def compile {ω : Type} (voc : Vocabulary ω) (definition : Json) : Except Fault (Pipeline ω) :=
  Definition.steps voc (Definition.namedPipeline voc voc.registry.pipelines) definition

end Reshape
