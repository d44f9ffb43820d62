import Reshape.Path.Basic
import Reshape.Text.Blank

/-!
# Path notation

Reading the written form of a path. Tokens are separated by dots, and bracket groups attach to the
token before them. A `>` in front of a token inverts it, a `>` in front of the whole path inverts
every step, and a backslash takes the next character literally. Every text is a path: what is not
path syntax is part of a name.
-/

namespace Reshape.Path

/-- The token being read: its characters, whether a `>` stood in front, and whether some of its
characters were taken literally, which makes it a name and protects its blanks. -/
structure Token where
  text : List Char := []
  inverted : Bool := false
  literal : Bool := false

namespace Token

def push (t : Token) (c : Char) : Token :=
  { t with text := t.text ++ [c] }

def pushLiteral (t : Token) (cs : List Char) : Token :=
  { t with text := t.text ++ cs, literal := true }

/-- Is a `>` still an inversion mark here? -/
def isFresh (t : Token) : Bool :=
  Text.allBlank t.text && !t.literal

/-- The step of a finished token; a blank token makes none. -/
def steps (t : Token) : List PathStep :=
  let text := if t.literal then t.text else Text.trim t.text
  if text.isEmpty then []
  else if t.literal then [.move (.field (String.ofList text)) t.inverted]
  else if text = ['^'] then [.move .parent t.inverted]
  else if text = ['^', '^'] then [.move .root t.inverted]
  else if text = ['|'] then [.barrier (if t.inverted then .reverse else .forward)]
  else [.move (.field (String.ofList text)) t.inverted]

/-- What is left of a token after a bracket group: its inversion. -/
def afterBracket (t : Token) : Token :=
  { inverted := t.inverted }

end Token

/-- Is `n` an index that a path can name? -/
def isSlot (n : Int) : Bool :=
  Int64.minValue.toInt ≤ n && n ≤ Int64.maxValue.toInt

/-- The move of a bracket group: none inside means every slot, a number names one. Any other
content is no bracket group. -/
def bracket? (inner : List Char) : Option Move :=
  let inner := Text.trim inner
  if inner.isEmpty then some .each
  else (Text.intOf? inner).bind fun n =>
    if isSlot n then some (.index (Int64.ofInt n)) else none

/-- Where the scan stands: in a token, just behind a backslash, or in a bracket group whose
characters so far are `inner`. -/
inductive Place where
  | token
  | escape
  | bracket (inner : List Char)

def scan (place : Place) (t : Token) : List Char → List PathStep
  | [] =>
    match place with
    | .bracket inner => (t.pushLiteral ('[' :: inner)).steps
    | _ => t.steps
  | c :: rest =>
    match place with
    | .escape => scan .token (t.pushLiteral [c]) rest
    | .bracket inner =>
      if c = ']' then
        match bracket? inner with
        | some m => t.steps ++ .move m t.inverted :: scan .token t.afterBracket rest
        | none => scan .token (t.pushLiteral ('[' :: inner ++ [']'])) rest
      else scan (.bracket (inner ++ [c])) t rest
    | .token =>
      if c = '\\' then scan .escape t rest
      else if c = '.' then t.steps ++ scan .token {} rest
      else if c = '>' && t.isFresh then scan .token { t with inverted := true } rest
      else if c = '[' then scan (.bracket []) t rest
      else scan .token (t.push c) rest

/-- The steps of a trimmed path without the `>` in front of it. A lone dot is the identity, or the
merge that keeps the current side when the whole path is inverted. -/
def body (inverted : Bool) (cs : List Char) : List PathStep :=
  if cs.isEmpty then []
  else if cs = ['.'] then if inverted then [.move (.merge .current) false] else []
  else if cs = ['.', '.', '.'] then [.move (.merge .target) false]
  else scan .token {} cs

def read (path : List Char) : List PathStep :=
  match Text.trim path with
  | '>' :: rest => (body true (Text.trimStart rest)).map PathStep.invert
  | cs => body false cs

def tokenize (path : String) : List PathStep :=
  read path.toList

end Reshape.Path
