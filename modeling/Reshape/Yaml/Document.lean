import Reshape.Yaml.Schema
import Reshape.Yaml.Token

/-!
# Documents

The document that a list of tokens denotes. A text holds one document; an empty one is null. Keys
are the texts of scalars, whatever they would denote as values.
-/

namespace Reshape.Yaml

/-- The greatest nesting of collections. -/
def maxDepth : Nat := 128

/-- Does a token end the block in which a value could stand? -/
def endsValue : List Token → Bool
  | .key :: _ | .value :: _ | .blockEnd :: _ => true
  | _ => false

def endsItem : List Token → Bool
  | .item :: _ | .blockEnd :: _ => true
  | _ => false

def endsFlow : List Token → Bool
  | .comma :: _ | .flowSequenceEnd :: _ | .flowMappingEnd :: _ | .value :: _ => true
  | _ => false

/-- The key at the front. A missing one is the empty text; a collection is no key. -/
def keyOf? (missing : List Token → Bool) (ts : List Token) : Option (String × List Token) :=
  if missing ts then some ("", ts)
  else match ts with
    | .scalar text _ :: rest => some (String.ofList text, rest)
    | _ => none

/-- The key of a binding in a flow sequence. A missing one is the empty text and stands for the
token that shows it missing, be that a colon, a comma or the end of the sequence. -/
def pairKey? : List Token → Option (String × List Token)
  | .value :: rest | .comma :: rest | .flowSequenceEnd :: rest => some ("", rest)
  | .scalar text _ :: rest => some (String.ofList text, rest)
  | _ => none

mutual

/-- The node at the front. `indentless` admits a sequence at the column of the mapping around it. -/
def node? (fuel depth : Nat) (indentless : Bool) (ts : List Token) :
    Option (Json × List Token) :=
  match fuel, ts with
  | 0, _ => none
  | _ + 1, .scalar text plain :: rest =>
    if plain then (resolve? text).map fun j => (j, rest)
    else some (.str (String.ofList text), rest)
  | fuel + 1, t :: rest =>
    match depth with
    | 0 => none
    | depth + 1 =>
      match t with
      | .item =>
        if indentless then
          (items? fuel depth true ts).map fun (js, rest) => (.arr js, rest)
        else none
      | .blockSequence =>
        (items? fuel depth false rest).map fun (js, rest) => (.arr js, rest)
      | .blockMapping =>
        (bindings? fuel depth rest).map fun (bs, rest) => (.obj (Entries.ofList bs), rest)
      | .flowSequence =>
        (flowItems? fuel depth true rest).map fun (js, rest) => (.arr js, rest)
      | .flowMapping =>
        (flowBindings? fuel depth true rest).map fun (bs, rest) => (.obj (Entries.ofList bs), rest)
      | _ => none
  | _ + 1, [] => none

/-- The items of a block sequence, up to and with its end. -/
def items? (fuel depth : Nat) (indentless : Bool) (ts : List Token) :
    Option (List Json × List Token) :=
  match fuel with
  | 0 => none
  | fuel + 1 =>
    match ts with
    | .item :: rest => do
      let empty := endsItem rest || (indentless && endsValue rest)
      let (j, rest) ← if empty then some (.null, rest) else node? fuel depth false rest
      let (js, rest) ← items? fuel depth indentless rest
      some (j :: js, rest)
    | ts =>
      if indentless then some ([], ts)
      else match ts with
        | .blockEnd :: rest => some ([], rest)
        | _ => none

/-- The bindings of a block mapping, up to and with its end. -/
def bindings? (fuel depth : Nat) (ts : List Token) :
    Option (List (String × Json) × List Token) :=
  match fuel with
  | 0 => none
  | fuel + 1 =>
    match ts with
    | .key :: rest => do
      let (key, rest) ← keyOf? endsValue rest
      let (j, rest) ← match rest with
        | .value :: rest =>
          if endsValue rest then some (.null, rest) else node? fuel depth true rest
        | rest => some (.null, rest)
      let (bs, rest) ← bindings? fuel depth rest
      some ((key, j) :: bs, rest)
    | .blockEnd :: rest => some ([], rest)
    | _ => none

/-- The items of a flow sequence; a binding without braces is a mapping of its own. -/
def flowItems? (fuel depth : Nat) (first : Bool) (ts : List Token) :
    Option (List Json × List Token) :=
  match fuel with
  | 0 => none
  | fuel + 1 =>
    match ts with
    | .flowSequenceEnd :: rest => some ([], rest)
    | ts => do
      let ts ← if first then some ts else match ts with
        | .comma :: rest => some rest
        | _ => none
      match ts with
      | .flowSequenceEnd :: rest => some ([], rest)
      | .key :: rest =>
        match depth with
        | 0 => none
        | inner + 1 => do
          let (key, rest) ← pairKey? rest
          let (j, rest) ← flowValue? fuel inner rest
          let (js, rest) ← flowItems? fuel depth false rest
          some (.obj [(key, j)] :: js, rest)
      | ts => do
        let (j, rest) ← node? fuel depth false ts
        let (js, rest) ← flowItems? fuel depth false rest
        some (j :: js, rest)

/-- The bindings of a flow mapping; a key alone is bound to null. -/
def flowBindings? (fuel depth : Nat) (first : Bool) (ts : List Token) :
    Option (List (String × Json) × List Token) :=
  match fuel with
  | 0 => none
  | fuel + 1 =>
    match ts with
    | .flowMappingEnd :: rest => some ([], rest)
    | ts => do
      let ts ← if first then some ts else match ts with
        | .comma :: rest => some rest
        | _ => none
      match ts with
      | .flowMappingEnd :: rest => some ([], rest)
      | .key :: rest => do
        let (key, rest) ← keyOf? endsFlow rest
        let (j, rest) ← flowValue? fuel depth rest
        let (bs, rest) ← flowBindings? fuel depth false rest
        some ((key, j) :: bs, rest)
      | .scalar text _ :: rest => do
        let (bs, rest) ← flowBindings? fuel depth false rest
        some ((String.ofList text, .null) :: bs, rest)
      | _ => none

/-- The value of a binding in a flow collection, behind its key. -/
def flowValue? (fuel depth : Nat) (ts : List Token) : Option (Json × List Token) :=
  match fuel with
  | 0 => none
  | fuel + 1 =>
    match ts with
    | .value :: rest => if endsFlow rest then some (.null, rest) else node? fuel depth false rest
    | rest => some (.null, rest)

end

/-- The first document of a list of tokens, and what follows it. A document behind a start mark may
be empty. -/
def firstDocument? : List Token → Option (Json × List Token)
  | [] => some (.null, [])
  | .documentStart :: rest =>
    match rest with
    | [] | .documentStart :: _ | .documentEnd :: _ => some (.null, rest)
    | rest => node? (2 * rest.length + 2) maxDepth false rest
  | ts => node? (2 * ts.length + 2) maxDepth false ts

/-- The document of a list of tokens that hold a single one. -/
def document? (ts : List Token) : Option Json :=
  match firstDocument? ts with
  | some (j, rest) => if rest.all (· == .documentEnd) then some j else none
  | none => none

/-- The document that a text holds, if it holds no more than one. -/
def read? (text : String) : Option Json :=
  (Token.ofText? text.toList).bind document?

end Reshape.Yaml
