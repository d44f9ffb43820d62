import Reshape.Json.Number

/-!
# Reading JSON text

A strict reader: no trailing commas, no comments, no control characters in strings, and arrays and
objects nested no deeper than `maxDepth`. A repeated key keeps its first position and takes its last
value.
-/

namespace Reshape.Json

def maxDepth : Nat := 127

def isSpace (c : Char) : Bool :=
  c = ' ' || c = '\n' || c = '\t' || c = '\r'

def skipSpace (cs : List Char) : List Char :=
  cs.dropWhile isSpace

def hexValue? (c : Char) : Option Nat :=
  if c.isDigit then some (c.toNat - '0'.toNat)
  else if 'a' ≤ c && c ≤ 'f' then some (c.toNat - 'a'.toNat + 10)
  else if 'A' ≤ c && c ≤ 'F' then some (c.toNat - 'A'.toNat + 10)
  else none

def hexOf? (cs : List Char) : Option Nat :=
  cs.foldl (fun n c => n.bind fun n => (hexValue? c).map (16 * n + ·)) (some 0)

/-- The character that a one-letter escape stands for. -/
def unescape? : Char → Option Char
  | '"' => some '"'
  | '\\' => some '\\'
  | '/' => some '/'
  | 'b' => some (Char.ofNat 8)
  | 'f' => some (Char.ofNat 12)
  | 'n' => some '\n'
  | 'r' => some '\r'
  | 't' => some '\t'
  | _ => none

/-- What a code unit of an escape does: it stands for a character, or opens or closes a surrogate
pair. -/
inductive CodeUnit where
  | char (c : Char)
  | high (n : Nat)
  | low (n : Nat)

def CodeUnit.ofNat (n : Nat) : CodeUnit :=
  if 0xD800 ≤ n && n < 0xDC00 then high (n - 0xD800)
  else if 0xDC00 ≤ n && n < 0xE000 then low (n - 0xDC00)
  else char (Char.ofNat n)

/-- The characters of a string up to its closing quote, and the text behind it. An open surrogate
pair must be closed by the very next escape. -/
def readString? (pair : Option Nat) : List Char → Option (List Char × List Char)
  | '\\' :: 'u' :: a :: b :: c :: d :: rest => do
    let n ← hexOf? [a, b, c, d]
    match pair, CodeUnit.ofNat n with
    | none, .char ch => (readString? none rest).map fun (s, rest) => (ch :: s, rest)
    | none, .high h => readString? (some h) rest
    | some h, .low l =>
      let ch := Char.ofNat (0x10000 + h * 0x400 + l)
      (readString? none rest).map fun (s, rest) => (ch :: s, rest)
    | _, _ => none
  | '\\' :: e :: rest => do
    let ch ← if pair.isSome then none else unescape? e
    (readString? none rest).map fun (s, rest) => (ch :: s, rest)
  | c :: rest =>
    if pair.isSome || c.toNat < 32 || c = '\\' then none
    else if c = '"' then some ([], rest)
    else (readString? none rest).map fun (s, rest) => (c :: s, rest)
  | [] => none

/-- The text behind `word`, if the text starts with it. -/
def stripWord? (word : String) (cs : List Char) : Option (List Char) :=
  if word.toList.isPrefixOf cs then some (cs.drop word.length) else none

mutual

/-- One value, nested in at most `depth` more arrays and objects. Of a call and the call inside it
at least one takes a character, so twice the length of the text is fuel enough. -/
def readValue? (fuel depth : Nat) (cs : List Char) : Option (Json × List Char) :=
  match fuel with
  | 0 => none
  | fuel + 1 =>
    match skipSpace cs with
    | '"' :: rest => (readString? none rest).map fun (s, rest) => (.str (String.ofList s), rest)
    | '[' :: rest =>
      match depth with
      | 0 => none
      | depth + 1 =>
        match skipSpace rest with
        | ']' :: rest => some (.arr [], rest)
        | rest => (readItems? fuel depth rest).map fun (vs, rest) => (.arr vs, rest)
    | '\x7b' :: rest =>
      match depth with
      | 0 => none
      | depth + 1 =>
        match skipSpace rest with
        | '\x7d' :: rest => some (.obj [], rest)
        | rest => (readBindings? fuel depth rest).map fun (bs, rest) =>
          (.obj (Entries.ofList bs), rest)
    | '-' :: rest => do
      let (t, rest) ← NumberText.read? rest
      return (← t.toJson? true, rest)
    | 'n' :: rest => (stripWord? "ull" rest).map fun rest => (.null, rest)
    | 't' :: rest => (stripWord? "rue" rest).map fun rest => (.bool true, rest)
    | 'f' :: rest => (stripWord? "alse" rest).map fun rest => (.bool false, rest)
    | rest => do
      let (t, rest) ← NumberText.read? rest
      return (← t.toJson? false, rest)

/-- The items of an array up to its closing bracket. -/
def readItems? (fuel depth : Nat) (cs : List Char) : Option (List Json × List Char) :=
  match fuel with
  | 0 => none
  | fuel + 1 => do
    let (v, rest) ← readValue? fuel depth cs
    match skipSpace rest with
    | ',' :: rest => (readItems? fuel depth rest).map fun (vs, rest) => (v :: vs, rest)
    | ']' :: rest => some ([v], rest)
    | _ => none

/-- The bindings of an object up to its closing brace. -/
def readBindings? (fuel depth : Nat) (cs : List Char) :
    Option (List (String × Json) × List Char) :=
  match fuel with
  | 0 => none
  | fuel + 1 => do
    let (key, rest) ← match skipSpace cs with
      | '"' :: rest => readString? none rest
      | _ => none
    let (v, rest) ← match skipSpace rest with
      | ':' :: rest => readValue? fuel depth rest
      | _ => none
    let b := (String.ofList key, v)
    match skipSpace rest with
    | ',' :: rest => (readBindings? fuel depth rest).map fun (bs, rest) => (b :: bs, rest)
    | '\x7d' :: rest => some ([b], rest)
    | _ => none

end

/-- The document that a text holds, if it holds one and nothing else. -/
def read? (text : String) : Option Json :=
  let cs := text.toList
  match readValue? (2 * cs.length + 2) maxDepth cs with
  | some (v, rest) => if (skipSpace rest).isEmpty then some v else none
  | none => none

end Reshape.Json
