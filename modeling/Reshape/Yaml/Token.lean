import Reshape.Yaml.Scalar

/-!
# Tokens

A document as a list of tokens, in which indentation has become explicit: `blockSequence` and
`blockMapping` open a block collection and `blockEnd` closes it. A key is known as one only by the
colon behind it, so its place is kept until that colon comes.
-/

namespace Reshape.Yaml

inductive Token where
  | documentStart
  | documentEnd
  | blockSequence
  | blockMapping
  | blockEnd
  | flowSequence
  | flowSequenceEnd
  | flowMapping
  | flowMappingEnd
  | item
  | comma
  | key
  | value
  | scalar (text : List Char) (plain : Bool)
deriving DecidableEq

/-- A place where a key may have begun. A required one must turn out to be a key. -/
structure KeyPlace where
  required : Bool
  token : Nat
  offset : Nat
  line : Nat
  column : Nat

/-- How far a document has been read: the tokens so far, the columns of the open block collections,
and for the block level and each open flow collection the place of a key. -/
structure Reading where
  here : Cursor
  tokens : Array Token := #[]
  /-- The column of the innermost block collection, counted from one; zero outside of all. -/
  indent : Nat := 0
  outer : List Nat := []
  keys : List (Option KeyPlace) := [none]
  /-- Can a key begin here? -/
  keyAllowed : Bool := true

namespace Reading

def inFlow (r : Reading) : Bool :=
  1 < r.keys.length

def push (r : Reading) (t : Token) : Reading :=
  { r with tokens := r.tokens.push t }

/-- Closes the block collections to the right of a column, counted from one. -/
def closeTo (r : Reading) (column : Nat) : List Nat → Reading
  | [] => { r with outer := [] }
  | below :: outer =>
    if column < r.indent then
      closeTo { (r.push .blockEnd) with indent := below } column outer
    else { r with outer := below :: outer }

/-- Closes block collections, which have no say inside flow collections. -/
def unroll (r : Reading) (column : Nat) : Reading :=
  if r.inFlow then r else r.closeTo column r.outer

/-- Opens a block collection at a column unless one is open there already. Its token goes to the
given place. -/
def roll (r : Reading) (column place : Nat) (t : Token) : Reading :=
  if r.inFlow || column + 1 ≤ r.indent then r
  else
    { r with
      tokens := r.tokens.take place ++ #[t] ++ r.tokens.drop place
      outer := r.indent :: r.outer
      indent := column + 1 }

/-- Gives up the place of a key; a required key cannot be given up. -/
def dropKey? (r : Reading) : Option Reading :=
  match r.keys with
  | some k :: rest => if k.required then none else some { r with keys := none :: rest }
  | _ => some r

/-- Notes the place of a possible key. -/
def noteKey? (r : Reading) : Option Reading :=
  if !r.keyAllowed then some r
  else do
    let r ← r.dropKey?
    let k : KeyPlace := {
      required := !r.inFlow && r.indent == r.here.column + 1
      token := r.tokens.size
      offset := r.here.offset
      line := r.here.line
      column := r.here.column }
    some { r with keys := some k :: r.keys.tail }

/-- The greatest distance in bytes between the place of a key and the colon behind it. -/
def maxKeyBytes : Nat := 1024

/-- The place of a key that a colon here would end. A key and its colon stand on one line. -/
def keyPlace? (r : Reading) : Option KeyPlace :=
  match r.keys with
  | some k :: _ =>
    if k.line = r.here.line && r.here.offset ≤ k.offset + maxKeyBytes then some k else none
  | _ => none

/-- Goes over blanks, comments and line breaks to the next token. A tab cannot indent. -/
def toNext (fuel : Nat) (r : Reading) : Reading :=
  match fuel with
  | 0 => r
  | fuel + 1 =>
    let tabs := r.inFlow || !r.keyAllowed
    let here := r.here.skipWhile fun c => c = ' ' || (tabs && c = '\t')
    let here := if here.rest.head? == some '#' then here.skipWhile (!isLineBreak ·) else here
    match here.lineBreak? with
    | some (_, next) =>
      toNext fuel { r with here := next, keyAllowed := r.keyAllowed || !r.inFlow }
    | none => { r with here }

/-- Goes over the characters of a token and appends it. -/
def take (r : Reading) (n : Nat) (t : Token) : Reading :=
  { (r.push t) with here := r.here.skip n }

def mark? (r : Reading) (t : Token) : Option Reading := do
  let r ← (r.unroll 0).dropKey?
  some { (r.take 3 t) with keyAllowed := false }

def openFlow? (r : Reading) (t : Token) : Option Reading := do
  let r ← r.noteKey?
  some { (r.take 1 t) with keys := none :: r.keys, keyAllowed := true }

def closeFlow? (r : Reading) (t : Token) : Option Reading := do
  let r ← r.dropKey?
  let keys := if r.inFlow then r.keys.tail else r.keys
  some { (r.take 1 t) with keys, keyAllowed := false }

def comma? (r : Reading) : Option Reading := do
  let r ← r.dropKey?
  some { (r.take 1 .comma) with keyAllowed := true }

def item? (r : Reading) : Option Reading := do
  if !r.inFlow && !r.keyAllowed then none
  let r ← (r.roll r.here.column r.tokens.size .blockSequence).dropKey?
  some { (r.take 1 .item) with keyAllowed := true }

def key? (r : Reading) : Option Reading := do
  if !r.inFlow && !r.keyAllowed then none
  let r ← (r.roll r.here.column r.tokens.size .blockMapping).dropKey?
  some { (r.take 1 .key) with keyAllowed := !r.inFlow }

/-- A colon. It makes a key of what began at the place of a key, if there is one. -/
def value? (r : Reading) : Option Reading :=
  match r.keyPlace? with
  | some k =>
    let tokens := r.tokens.take k.token ++ #[.key] ++ r.tokens.drop k.token
    let r := { r with tokens }.roll k.column k.token .blockMapping
    some { (r.take 1 .value) with keys := none :: r.keys.tail, keyAllowed := false }
  | none => do
    let r ← if r.keys.head?.join.any (·.required) then none else some r
    if !r.inFlow && !r.keyAllowed then none
    let r := r.roll r.here.column r.tokens.size .blockMapping
    some { (r.take 1 .value) with keys := none :: r.keys.tail, keyAllowed := !r.inFlow }

def block? (r : Reading) (literal : Bool) : Option Reading := do
  let r ← r.dropKey?
  let (text, here) ← Yaml.block? literal r.indent (r.here.skip 1)
  some { (r.push (.scalar text false)) with here, keyAllowed := true }

def quoted? (r : Reading) (single : Bool) : Option Reading := do
  let r ← r.noteKey?
  let (text, here) ← Yaml.quoted? single (r.here.rest.length + 1) [] (r.here.skip 1)
  some { (r.push (.scalar text false)) with here, keyAllowed := false }

def plain? (r : Reading) : Option Reading := do
  let r ← r.noteKey?
  let (text, broken, here) ←
    Yaml.plain? r.inFlow r.indent (r.here.rest.length + 1) [] {} r.here
  some { (r.push (.scalar text true)) with here, keyAllowed := broken }

/-- The characters that cannot begin a plain scalar. -/
def isIndicator (c : Char) : Bool :=
  "-?:,[]\x7b\x7d#&*!|>'\"%@`".toList.contains c

/-- Can a plain scalar begin with `c` in front of `rest`? -/
def beginsPlain (flow : Bool) (c : Char) (rest : List Char) : Bool :=
  if c = '-' then !(rest.head?.any isSpaceOrTab)
  else if c = '?' || c = ':' then !flow && !endsWord rest
  else !endsWord [c] && !isIndicator c

/-- Reads one token that begins with `c`. -/
def token? (r : Reading) (c : Char) (rest : List Char) : Option Reading :=
  if r.here.atMark '-' then r.mark? .documentStart
  else if r.here.atMark '.' then r.mark? .documentEnd
  else if c = '[' then r.openFlow? .flowSequence
  else if c = '\x7b' then r.openFlow? .flowMapping
  else if c = ']' then r.closeFlow? .flowSequenceEnd
  else if c = '\x7d' then r.closeFlow? .flowMappingEnd
  else if c = ',' then r.comma?
  else if c = '-' && endsWord rest then r.item?
  else if c = '?' && (r.inFlow || endsWord rest) then r.key?
  else if c = ':' && (r.inFlow || endsWord rest) then r.value?
  else if c = '|' && !r.inFlow then r.block? true
  else if c = '>' && !r.inFlow then r.block? false
  else if c = '\'' then r.quoted? true
  else if c = '"' then r.quoted? false
  else if beginsPlain r.inFlow c rest then r.plain?
  else none

/-- The end of the text: all block collections close, and a required key is missing its colon. -/
def finish? (r : Reading) : Option (List Token) :=
  (r.unroll 0).dropKey?.map (·.tokens.toList)

def tokens? (fuel : Nat) (r : Reading) : Option (List Token) :=
  match fuel with
  | 0 => none
  | fuel + 1 =>
    let r := r.toNext (r.here.rest.length + 1)
    let r := r.unroll (r.here.column + 1)
    match r.here.rest with
    | [] => r.finish?
    | c :: rest => (r.token? c rest).bind (tokens? fuel)

end Reading

/-- The characters that a document may hold. -/
def isPrintable (c : Char) : Bool :=
  let n := c.toNat
  n == 9 || n == 10 || n == 13 || (0x20 ≤ n && n ≤ 0x7E) || n == 0x85 || (0xA0 ≤ n && n ≤ 0xD7FF) ||
    (0xE000 ≤ n && n ≤ 0xFFFD) || 0x10000 ≤ n

/-- The tokens of a text. Every token takes a character, so the bound is not reached. -/
def Token.ofText? (cs : List Char) : Option (List Token) :=
  if cs.all isPrintable then Reading.tokens? (cs.length + 2) { here := .start cs } else none

end Reshape.Yaml
