import Reshape.Pipeline.Basic
import Reshape.Value.Merge

/-!
# Operations

What shapes and operations do with a value, given runners for their sub-pipelines. All fields of a
shape see the shape's input; their results are taken up in the order of the fields, which fixes the
order of the keys.
-/

namespace Reshape

variable {ω : Type}

/-- How a part of a pipeline runs on a value in a state. -/
abbrev Runner (ω : Type) := Value → State → Task ω Value

/-! ### Shapes -/

/-- A field of a shape, ready to run. -/
structure Branch (ω : Type) where
  merge : Option Preference
  only : Option Direction
  run : Runner ω

/-- Takes the result of a field into the map built so far. A keyed result that is no map is dropped
once something has been built. -/
def Branch.absorb (ns : Nonvalues) (acc : Value) (b : Branch ω) (result : Value) : Value :=
  if ns.contains result then acc
  else match b.merge with
    | some prefer => acc.spreadInto result prefer
    | none =>
      match acc with
      | .map entries =>
        if !result.isMap && !entries.isEmpty then acc else acc.deepMerge result
      | acc => acc.deepMerge result

/-- The map that the fields build from `v`, on top of a map target. -/
def assemble (branches : List (Branch ω)) : Runner ω := fun v s =>
  let seed := match s.target with
    | some (.map entries) => .map entries
    | _ => .map []
  let active := branches.filter fun b => Direction.admits b.only s.effective
  (Task.joinAll (active.map fun b => b.run v (s.withTarget none))).map fun results =>
    (active.zip results).foldl (fun acc r => r.1.absorb s.nonvalues acc r.2) seed

namespace Shape

variable {σ : Type}

/-- The state inside a shape. -/
def enter (sh : Shape σ) (s : State) : State :=
  { s with
    flip := s.flip != sh.flip
    noDefaults := s.noDefaults || sh.noDefaults
    always := s.always || sh.always }

/-- Runs a shape whose fields are `branches`. An iterating shape treats each item of a sequence, on
top of the same slot of a sequence target. -/
def run (sh : Shape σ) (branches : List (Branch ω)) : Runner ω := fun v s =>
  if !Direction.admits sh.only s.effective then .done v
  else
    let skips := fun item => s.isNonvalue item && !sh.always
    let inner := sh.enter s
    match sh.iterate, v with
    | true, .seq items =>
      let slots := (s.target.bind Value.items?).getD []
      let inside := inner.pushContext (.seq items)
      (Task.forItems (fun (item, i) =>
        if skips item then .done item
        else assemble branches item (inside.withTarget slots[i]?)) items.zipIdx).map .seq
    | _, v => if skips v then .done v else assemble branches v inner

end Shape

/-! ### Operations -/

/-- An operation that may also end the run of the steps around it. -/
abbrev Action (ω : Type) := Value → State → Task ω (Option Value)

/-- Runs an operation on each item of a sequence, with the sequence on the context. -/
def Runner.onItems (body : Runner ω) : Runner ω := fun v s =>
  match v with
  | .seq items =>
    let inside := s.pushContext v
    (Task.forItems (fun item =>
      if s.isNonvalue item && !s.always then .done item else body item inside) items).map .seq
  | v => body v s

/-- An operation with its flags: it passes the value on in the direction that it does not act in,
and a nonvalue ends the run. -/
def Flags.guard (flags : Flags) (body : Runner ω) : Action ω := fun v s =>
  if !Direction.admits flags.only s.effective then .done (some v)
  else if s.isNonvalue v && !s.always then .done none
  else (body v s).map some

def Source.produce : Source ω → Task ω Value
  | .constant v => .done v
  | .generator _ next => Task.ofState fun w => (.ok (next w).1, (next w).2)

namespace Op

/-- The items that the verdict of `call` keeps; nonvalues are dropped unseen. -/
def keepItems (call : Call ω) (s : State) : List Value → Task ω (List Value)
  | [] => .done []
  | item :: rest =>
    if s.isNonvalue item then keepItems call s rest
    else do
      let verdict ← call.transform.call item s
      let kept ← keepItems call s rest
      .done (if verdict.isTruthy then item :: kept else kept)

def runFilter (call : Call ω) : Runner ω := fun v s =>
  match v with
  | .seq items => (keepItems call s items).map .seq
  | v => (call.transform.call v s).map fun verdict => if verdict.isTruthy then v else .absent

def runValue (source : Source ω) (fixed : Bool) : Runner ω := fun _ s =>
  if s.noDefaults && !fixed then .done .absent else source.produce

def runAlt (alternatives : List (Runner ω)) : Runner ω := fun v s =>
  match alternatives with
  | [] => .done .absent
  | r :: rest => do
    let out ← r v s
    if s.isNonvalue out then runAlt rest v s else .done out

/-- Forward, each key is replaced by the first candidate that has it; in reverse, each item is
replaced by its key. Candidates come from the lowest frame of the context, or from the value
itself. -/
def runLookup (array key : Runner ω) : Runner ω := fun v s =>
  let reader := s.reader
  if s.isReverse then
    match v with
    | .seq items => (Task.forItems (key · reader) items).map .seq
    | v => key v reader
  else do
    let found ← array (s.context.bottom?.getD v) reader
    let candidates := found.toItems.filter (!reader.isNonvalue ·)
    let keyed ← Task.forItems (fun c => (key c reader).map fun k => (k, c)) candidates
    let find := fun wanted =>
      match keyed.find? fun (k, _) => !reader.isNonvalue k && k.eqv wanted with
      | some (_, c) => c
      | none => .absent
    match v with
    | .seq keys => .done (.seq (keys.map find))
    | wanted => .done (find wanted)

/-- The joined items that the pipelines produce from one value. -/
def joinItems (pipelines : List (Runner ω)) (v : Value) (s : State) : Task ω (List Value) :=
  match pipelines with
  | [] => .done []
  | r :: rest => do
    let out ← r v s
    let more ← joinItems rest v s
    .done (out.toItems.filter (!s.isNonvalue ·) ++ more)

/-- In reverse the first pipeline gets the whole sequence and the others an empty one; what they
build is merged. -/
def splitItems (pipelines : List (Runner ω)) (acc v : Value) (s : State) : Task ω Value :=
  match pipelines with
  | [] => .done acc
  | r :: rest => do
    let out ← r v s
    splitItems rest (acc.deepMerge out) (.seq []) s

def runConcat (pipelines : List (Runner ω)) : Runner ω := fun v s =>
  if s.isReverse then splitItems pipelines .absent v s
  else (joinItems pipelines v s).map .seq

end Op

end Reshape
