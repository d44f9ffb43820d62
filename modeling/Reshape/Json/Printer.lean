import Reshape.Decimal.Layout
import Reshape.Json.Basic

/-!
# Compact JSON text

No blanks between tokens. Strings escape the quote, the backslash and the control characters below
the blank; numbers that no JSON text can carry are written `null`.
-/

namespace Reshape.Json

/-- Exponents from -5 to 15 are positional, a whole number keeps its point, and a tie between two
equally short decimals goes to the even one. -/
def numberLayout : Decimal.Layout where
  least := some (-5)
  bound := some 16
  keepsPoint := true
  tie := .even

def floatText (x : Float) : List Char :=
  if x.isFinite then numberLayout.write x else ['n', 'u', 'l', 'l']

/-- A character inside a quoted string. -/
def escape (c : Char) : List Char :=
  if c = '"' then ['\\', '"']
  else if c = '\\' then ['\\', '\\']
  else if c = '\n' then ['\\', 'n']
  else if c = '\r' then ['\\', 'r']
  else if c = '\t' then ['\\', 't']
  else if c.toNat = 8 then ['\\', 'b']
  else if c.toNat = 12 then ['\\', 'f']
  else if c.toNat < 32 then
    ['\\', 'u', '0', '0', Nat.digitChar (c.toNat / 16), Nat.digitChar (c.toNat % 16)]
  else [c]

def quoted (s : String) : List Char :=
  '"' :: s.toList.flatMap escape ++ ['"']

def boolText (b : Bool) : List Char :=
  if b then ['t', 'r', 'u', 'e'] else ['f', 'a', 'l', 's', 'e']

mutual

def text : Json → List Char
  | null => ['n', 'u', 'l', 'l']
  | bool b => boolText b
  | int n => Text.ofInt n
  | float x => floatText x
  | str s => quoted s
  | arr items => '[' :: itemsText items ++ [']']
  | obj entries => '{' :: entriesText entries ++ ['}']

def itemsText : List Json → List Char
  | [] => []
  | [v] => text v
  | v :: rest => text v ++ ',' :: itemsText rest

def entriesText : List (String × Json) → List Char
  | [] => []
  | [(k, v)] => quoted k ++ ':' :: text v
  | (k, v) :: rest => quoted k ++ ':' :: text v ++ ',' :: entriesText rest

end

def compact (j : Json) : String :=
  String.ofList j.text

end Reshape.Json
