import Reshape.Json.Printer
import Reshape.Value.Basic

/-!
# Values and JSON

The two conversions between values and documents, and the texts of a value. Absence becomes null
in a sequence and drops its entry from a map; dates become their text.
-/

namespace Reshape

/-- The bounds of the integers that values hold. -/
def fitsInt64 (n : Int) : Bool :=
  Int64.minValue.toInt ≤ n && n ≤ Int64.maxValue.toInt

namespace Value

mutual

def ofJson : Json → Value
  | .null => null
  | .bool b => bool b
  | .int n => if fitsInt64 n then int (Int64.ofInt n) else float (Float.ofInt n)
  | .float x => float x
  | .str s => str s
  | .arr items => seq (ofItems items)
  | .obj entries => map (ofEntries entries)

def ofItems : List Json → List Value
  | [] => []
  | j :: rest => ofJson j :: ofItems rest

def ofEntries : List (String × Json) → List (String × Value)
  | [] => []
  | (k, j) :: rest => (k, ofJson j) :: ofEntries rest

end

mutual

def toJson : Value → Json
  | absent | null => .null
  | bool b => .bool b
  | int n => .int n.toInt
  | float x => if x.isFinite then .float x else .null
  | str s => .str s
  | date t => .str (String.ofList t.text)
  | seq items => .arr (toItemsJson items)
  | map entries => .obj (toEntriesJson entries)

def toItemsJson : List Value → List Json
  | [] => []
  | v :: rest => toJson v :: toItemsJson rest

def toEntriesJson : List (String × Value) → List (String × Json)
  | [] => []
  | (k, v) :: rest =>
    if v.isAbsent then toEntriesJson rest else (k, toJson v) :: toEntriesJson rest

end

mutual

/-- The compact JSON text of a value, written without a document in between. -/
def encode : Value → List Char
  | absent | null => ['n', 'u', 'l', 'l']
  | bool b => Json.boolText b
  | int n => Text.ofInt n.toInt
  | float x => Json.floatText x
  | str s => Json.quoted s
  | date t => Json.quoted (String.ofList t.text)
  | seq items => '[' :: encodeItems true items ++ [']']
  | map entries => '{' :: encodeEntries true entries ++ ['}']

def encodeItems (first : Bool) : List Value → List Char
  | [] => []
  | v :: rest => (if first then [] else [',']) ++ encode v ++ encodeItems false rest

def encodeEntries (first : Bool) : List (String × Value) → List Char
  | [] => []
  | (k, v) :: rest =>
    if v.isAbsent then encodeEntries first rest
    else (if first then [] else [',']) ++ Json.quoted k ++ ':' :: encode v ++
      encodeEntries false rest

end

/-- Fractions are written positionally at any exponent; a tie between two equally short decimals
goes up. -/
def fractionLayout : Decimal.Layout where
  least := none
  bound := none
  keepsPoint := false
  tie := .up

/-- A float as a plain number: every digit of a whole number, the shortest digits of a fraction. -/
def floatDisplay (x : Float) : List Char :=
  if x.isNaN then ['N', 'a', 'N']
  else if !x.isFinite then
    if Decimal.isNegative x then ['-', 'i', 'n', 'f'] else ['i', 'n', 'f']
  else if (Decimal.Binary.ofFloat x).isWhole then Decimal.whole x
  else fractionLayout.write x

/-- The text of a value for a reader: strings bare, sequences and maps as compact JSON. -/
def display : Value → String
  | absent => "undefined"
  | null => "null"
  | bool b => String.ofList (Json.boolText b)
  | int n => String.ofList (Text.ofInt n.toInt)
  | float x => String.ofList (floatDisplay x)
  | str s => s
  | date t => String.ofList t.text
  | v => v.toJson.compact

end Value

end Reshape
