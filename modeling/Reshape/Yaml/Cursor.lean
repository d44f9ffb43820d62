/-!
# Cursors

A place in a text: the characters that are left, how many bytes and lines lie behind, and how many
characters of the line.
-/

namespace Reshape.Yaml

structure Cursor where
  rest : List Char
  /-- The bytes of the text before this place, in UTF-8. -/
  offset : Nat := 0
  line : Nat := 0
  column : Nat := 0

/-- The size of a text in UTF-8. -/
def byteCount (cs : List Char) : Nat :=
  cs.foldl (fun n c => n + c.utf8Size) 0

/-- A blank inside a line. -/
def isSpaceOrTab (c : Char) : Bool :=
  c = ' ' || c = '\t'

def isLineBreak (c : Char) : Bool :=
  c = '\n' || c = '\r' || c.toNat = 0x85 || c.toNat = 0x2028 || c.toNat = 0x2029

/-- Does the text end here, or go on with a blank or a line break? -/
def endsWord : List Char → Bool
  | [] => true
  | c :: _ => isSpaceOrTab c || isLineBreak c

namespace Cursor

/-- Goes over `n` characters of one line. -/
def skip (here : Cursor) (n : Nat) : Cursor :=
  { here with
    rest := here.rest.drop n
    offset := here.offset + byteCount (here.rest.take n)
    column := here.column + n }

/-- The start of a text. A byte order mark in front takes a column of the first line. -/
def start (cs : List Char) : Cursor :=
  let here : Cursor := { rest := cs }
  if cs.head?.any (·.toNat = 0xFEFF) then here.skip 1 else here

/-- Goes over the characters that satisfy `p`, none of them a line break. -/
def skipWhile (here : Cursor) (p : Char → Bool) : Cursor :=
  here.skip (here.rest.takeWhile p).length

/-- Goes over a line break. The breaks of common texts all become a newline; the line and paragraph
separators stay as they are. -/
def lineBreak? (here : Cursor) : Option (Char × Cursor) :=
  let after := fun n => {
    rest := here.rest.drop n
    offset := here.offset + byteCount (here.rest.take n)
    line := here.line + 1 }
  match here.rest with
  | '\r' :: '\n' :: _ => some ('\n', after 2)
  | c :: _ =>
    if c.toNat = 0x2028 || c.toNat = 0x2029 then some (c, after 1)
    else if isLineBreak c then some ('\n', after 1)
    else none
  | [] => none

/-- Is there a document mark, `---` or `...`, at the start of a line? -/
def atMark (here : Cursor) (c : Char) : Bool :=
  here.column == 0 && [c, c, c].isPrefixOf here.rest && endsWord (here.rest.drop 3)

def atAnyMark (here : Cursor) : Bool :=
  here.atMark '-' || here.atMark '.'

end Cursor

end Reshape.Yaml
