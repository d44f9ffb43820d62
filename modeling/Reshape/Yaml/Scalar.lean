import Reshape.Json.Reader
import Reshape.Yaml.Cursor

/-!
# Scalar styles

The text of plain, quoted and block scalars. Inside a plain or quoted scalar a line break with the
blanks around it is folded into a single blank, and every further one is kept.
-/

namespace Reshape.Yaml

/-- Blanks and line breaks between two words of a scalar: the blanks before the first break, that
break and the breaks after it. -/
structure Gap where
  spaces : List Char := []
  broken : Bool := false
  first : List Char := []
  more : List Char := []

namespace Gap

/-- A first break with the breaks after it, folded. -/
def fold (first more : List Char) : List Char :=
  if first = ['\n'] then (if more.isEmpty then [' '] else more) else first ++ more

def text (g : Gap) : List Char :=
  if g.broken then fold g.first g.more else g.spaces

/-- Reads on to the next word. A tab left of `margin` on a new line is refused. -/
def read? (margin : Nat) (fuel : Nat) (g : Gap) (here : Cursor) : Option (Gap × Cursor) :=
  match fuel with
  | 0 => some (g, here)
  | fuel + 1 =>
    match here.lineBreak? with
    | some (b, next) =>
      if g.broken then read? margin fuel { g with more := g.more ++ [b] } next
      else read? margin fuel { broken := true, first := [b] } next
    | none =>
      match here.rest with
      | c :: _ =>
        if !isSpaceOrTab c then some (g, here)
        else if !g.broken then read? margin fuel { g with spaces := g.spaces ++ [c] } (here.skip 1)
        else if c = '\t' && here.column < margin then none
        else read? margin fuel g (here.skip 1)
      | [] => some (g, here)

end Gap

/-! ### Plain scalars -/

/-- An indicator that stands on its own inside flow collections. -/
def isFlowIndicator (c : Char) : Bool :=
  c = ',' || c = '[' || c = ']' || c = '\x7b' || c = '\x7d'

/-- The length of the next word of a plain scalar; none if a colon touches a flow indicator. -/
def plainWord? (flow : Bool) : List Char → Option Nat
  | [] => some 0
  | c :: rest =>
    if endsWord (c :: rest) then some 0
    else if c = ':' && endsWord rest then some 0
    else if flow && c = ':' && rest.head?.any (fun d => isFlowIndicator d || d = '?') then none
    else if flow && isFlowIndicator c then some 0
    else (plainWord? flow rest).map (· + 1)

/-- Reads a plain scalar. Answers its text, whether a line break came last, and the place behind
it. -/
def plain? (flow : Bool) (margin : Nat) (fuel : Nat) (text : List Char) (gap : Gap)
    (here : Cursor) : Option (List Char × Bool × Cursor) :=
  match fuel with
  | 0 => none
  | fuel + 1 =>
    if here.atAnyMark || here.rest.head? == some '#' then some (text, gap.broken, here)
    else do
      let n ← plainWord? flow here.rest
      let (text, gap) :=
        if n = 0 then (text, gap) else (text ++ gap.text ++ here.rest.take n, {})
      let next := here.skip n
      if next.rest.isEmpty || !endsWord next.rest then some (text, gap.broken, next)
      else
        let (gap, next) ← gap.read? margin (next.rest.length + 1) next
        if !flow && next.column < margin then some (text, gap.broken, next)
        else plain? flow margin fuel text gap next

/-! ### Quoted scalars -/

/-- The character of a one-letter escape. -/
def escaped? (c : Char) : Option Char :=
  match c with
  | '0' => some (Char.ofNat 0)
  | 'a' => some (Char.ofNat 7)
  | 'b' => some (Char.ofNat 8)
  | 't' | '\t' => some '\t'
  | 'n' => some '\n'
  | 'v' => some (Char.ofNat 11)
  | 'f' => some (Char.ofNat 12)
  | 'r' => some '\r'
  | 'e' => some (Char.ofNat 27)
  | ' ' => some ' '
  | '"' => some '"'
  | '/' => some '/'
  | '\\' => some '\\'
  | 'N' => some (Char.ofNat 0x85)
  | '_' => some (Char.ofNat 0xA0)
  | 'L' => some (Char.ofNat 0x2028)
  | 'P' => some (Char.ofNat 0x2029)
  | _ => none

/-- The number of hexadecimal digits that an escape takes. -/
def hexLength? (c : Char) : Option Nat :=
  match c with
  | 'x' => some 2
  | 'u' => some 4
  | 'U' => some 8
  | _ => none

def scalarValue? (n : Nat) : Option Char :=
  if n ≤ 0x10FFFF && !(0xD800 ≤ n && n < 0xE000) then some (Char.ofNat n) else none

/-- Where a word of a quoted scalar ends. -/
inductive WordEnd where
  | quote
  | gap
  /-- An escaped line break: the lines are joined without a blank. -/
  | joined

def singleWord (fuel : Nat) (here : Cursor) : List Char × WordEnd × Cursor :=
  match fuel with
  | 0 => ([], .gap, here)
  | fuel + 1 =>
    match here.rest with
    | '\'' :: '\'' :: _ =>
      let (w, e, next) := singleWord fuel (here.skip 2)
      ('\'' :: w, e, next)
    | '\'' :: _ => ([], .quote, here.skip 1)
    | c :: rest =>
      if endsWord (c :: rest) then ([], .gap, here)
      else
        let (w, e, next) := singleWord fuel (here.skip 1)
        (c :: w, e, next)
    | [] => ([], .gap, here)

def doubleWord? (fuel : Nat) (here : Cursor) : Option (List Char × WordEnd × Cursor) :=
  match fuel with
  | 0 => some ([], .gap, here)
  | fuel + 1 =>
    match here.rest with
    | '"' :: _ => some ([], .quote, here.skip 1)
    | '\\' :: e :: digits =>
      if isLineBreak e then
        (here.skip 1).lineBreak?.map fun (_, next) => ([], .joined, next)
      else match hexLength? e with
        | some n =>
          if digits.length < n then none
          else do
            let c ← (Json.hexOf? (digits.take n)).bind scalarValue?
            let (w, stop, next) ← doubleWord? fuel (here.skip (n + 2))
            some (c :: w, stop, next)
        | none => do
          let c ← escaped? e
          let (w, stop, next) ← doubleWord? fuel (here.skip 2)
          some (c :: w, stop, next)
    | '\\' :: [] => none
    | c :: rest =>
      if endsWord (c :: rest) then some ([], .gap, here)
      else do
        let (w, stop, next) ← doubleWord? fuel (here.skip 1)
        some (c :: w, stop, next)
    | [] => some ([], .gap, here)

/-- Reads a quoted scalar behind its opening quote. -/
def quoted? (single : Bool) (fuel : Nat) (text : List Char) (here : Cursor) :
    Option (List Char × Cursor) :=
  match fuel with
  | 0 => none
  | fuel + 1 =>
    if here.atAnyMark || here.rest.isEmpty then none
    else do
      let bound := here.rest.length + 1
      let (w, stop, next) ←
        if single then some (singleWord bound here) else doubleWord? bound here
      match stop with
      | .quote => some (text ++ w, next)
      | .gap =>
        let (gap, next) ← Gap.read? 0 (next.rest.length + 1) {} next
        quoted? single fuel (text ++ w ++ gap.text) next
      | .joined =>
        let (gap, next) ← Gap.read? 0 (next.rest.length + 1) { broken := true } next
        quoted? single fuel (text ++ w ++ gap.text) next

/-! ### Block scalars -/

/-- What becomes of the line breaks at the end of a block scalar. -/
inductive Chomp where
  | clip
  | strip
  | keep
deriving DecidableEq

/-- The header behind the indicator: chomping and indentation, in either order. -/
def blockHeader? (here : Cursor) : Option (Chomp × Option Nat × Cursor) :=
  let chomp? := fun (c : Char) => if c = '+' then some Chomp.keep else if c = '-' then some .strip
    else none
  let depth? := fun (c : Char) => if c.isDigit then some (c.toNat - '0'.toNat) else none
  let header := match here.rest with
    | c :: d :: _ =>
      match chomp? c, depth? c with
      | some k, _ =>
        match depth? d with
        | some n => (k, some n, 2)
        | none => (k, none, 1)
      | none, some n =>
        match chomp? d with
        | some k => (k, some n, 2)
        | none => (.clip, some n, 1)
      | none, none => (.clip, none, 0)
    | [c] =>
      match chomp? c, depth? c with
      | some k, _ => (k, none, 1)
      | none, some n => (.clip, some n, 1)
      | none, none => (.clip, none, 0)
    | [] => (.clip, none, 0)
  if header.2.1 = some 0 then none
  else
    let here := (here.skip header.2.2).skipWhile isSpaceOrTab
    let here := if here.rest.head? == some '#' then here.skipWhile (!isLineBreak ·) else here
    match here.lineBreak? with
    | some (_, next) => some (header.1, header.2.1, next)
    | none => if here.rest.isEmpty then some (header.1, header.2.1, here) else none

/-- Goes over empty lines and the indentation of the next line. Where the indentation is not known
yet, the deepest one seen sets it, but never below `least`. -/
def blockBreaks? (least : Nat) (indent : Option Nat) (fuel : Nat) (deepest : Nat)
    (breaks : List Char) (here : Cursor) : Option (Nat × List Char × Cursor) :=
  match fuel with
  | 0 => none
  | fuel + 1 =>
    let spaces := (here.rest.takeWhile (· == ' ')).length
    let here := here.skip (match indent with
      | none => spaces
      | some n => min spaces (n - here.column))
    let deepest := max deepest here.column
    let loose := match indent with
      | none => true
      | some n => here.column < n
    if loose && here.rest.head? == some '\t' then none
    else match here.lineBreak? with
      | some (b, next) => blockBreaks? least indent fuel deepest (breaks ++ [b]) next
      | none => some (indent.getD (max deepest (max least 1)), breaks, here)

/-- Reads the lines of a block scalar. `first` and `more` are the line breaks that wait for the next
line, and `blank` tells whether the line before them began with a blank. -/
def blockLines? (literal : Bool) (chomp : Chomp) (indent : Nat) (fuel : Nat) (text : List Char)
    (first more : List Char) (blank : Bool) (here : Cursor) : Option (List Char × Cursor) :=
  match fuel with
  | 0 => none
  | fuel + 1 =>
    if here.column = indent && !here.rest.isEmpty then do
      let startsBlank := here.rest.head?.any isSpaceOrTab
      let lead :=
        if !literal && first = ['\n'] && !blank && !startsBlank then
          if more.isEmpty then [' '] else []
        else first
      let line := here.rest.takeWhile (!isLineBreak ·)
      let text := text ++ lead ++ more ++ line
      let behind := here.skip line.length
      let (first, next) := match behind.lineBreak? with
        | some (b, next) => ([b], next)
        | none => ([], behind)
      let (_, more, next) ← blockBreaks? 0 (some indent) (next.rest.length + 1) 0 [] next
      blockLines? literal chomp indent fuel text first more startsBlank next
    else
      let tail := match chomp with
        | .strip => []
        | .clip => first
        | .keep => first ++ more
      some (text ++ tail, here)

/-- Reads a block scalar behind its indicator. `margin` is the least column of its lines. -/
def block? (literal : Bool) (margin : Nat) (here : Cursor) : Option (List Char × Cursor) := do
  let (chomp, depth, next) ← blockHeader? here
  let indent := depth.map fun n => if margin = 0 then n else margin - 1 + n
  let (indent, more, next) ← blockBreaks? margin indent (next.rest.length + 1) 0 [] next
  blockLines? literal chomp indent (next.rest.length + 2) [] [] more false next

end Reshape.Yaml
