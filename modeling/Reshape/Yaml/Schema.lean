import Reshape.Json.Reader

/-!
# The core schema

What a plain scalar denotes: null, a truth value, an integer, a float, or its own text. A text of
digits with a leading zero is no number, and an integer of more than 64 bits cannot be held.
-/

namespace Reshape.Yaml

/-- The number that digits in the given base denote; none unless there is a digit and nothing
else. -/
def digitsOf? (base : Nat) (cs : List Char) : Option Nat :=
  if cs.isEmpty then none
  else cs.foldl (fun n c => do
    let n ← n
    let d ← Json.hexValue? c
    if d < base then some (n * base + d) else none) (some 0)

/-- Is this a text of digits with a leading zero, signed or not? -/
def isZeroPadded (cs : List Char) : Bool :=
  let ds := match cs with
    | '+' :: ds | '-' :: ds => ds
    | ds => ds
  1 < ds.length && ds.head? == some '0' && ds.all Char.isDigit

/-- The digits behind a mark for base 16, 8 or 2. -/
def based? : List Char → Option Nat
  | '0' :: 'x' :: ds => digitsOf? 16 ds
  | '0' :: 'o' :: ds => digitsOf? 8 ds
  | '0' :: 'b' :: ds => digitsOf? 2 ds
  | _ => none

/-- The integer that a text denotes, of any size. -/
def intOf? (cs : List Char) : Option Int :=
  let decimal := fun ds => if isZeroPadded cs then none else digitsOf? 10 ds
  match cs with
  | '-' :: ds => ((based? ds <|> decimal ds).map fun n => -(n : Int))
  | '+' :: ds => ((based? ds <|> decimal ds).map fun n => (n : Int))
  | ds => ((based? ds <|> decimal ds).map fun n => (n : Int))

/-- The double nearest to `digits * 10 ^ exponent`; none if it is infinite. -/
def nearest? (digits : List Char) (exponent : Int) : Option Float :=
  let m := Nat.ofDigitChars 10 digits 0
  let size := exponent + (Nat.toDigits 10 m).length
  if m = 0 || size < -400 then some 0
  else if 400 < size then none
  else
    let x := match exponent with
      | .ofNat e => Float.ofScientific m false e
      | .negSucc e => Float.ofScientific m true (e + 1)
    if x.isFinite then some x else none

/-- A decimal number without a sign: digits with an optional point, and an optional exponent. -/
def decimalOf? (cs : List Char) : Option Float :=
  let whole := cs.takeWhile Char.isDigit
  let (fraction, rest) := match cs.dropWhile Char.isDigit with
    | '.' :: rest => (rest.takeWhile Char.isDigit, rest.dropWhile Char.isDigit)
    | rest => ([], rest)
  if whole.isEmpty && fraction.isEmpty then none
  else
    let exponent := match rest with
      | [] => some 0
      | e :: rest =>
        if e = 'e' || e = 'E' then
          match rest with
          | '-' :: ds => (digitsOf? 10 ds).map fun n => -(n : Int)
          | '+' :: ds => (digitsOf? 10 ds).map fun n => (n : Int)
          | ds => (digitsOf? 10 ds).map fun n => (n : Int)
        else none
    exponent.bind fun e => nearest? (whole ++ fraction) (e - fraction.length)

/-- The float that a text denotes. Documents have no infinities and no NaN; their names denote
null. -/
def floatOf? (cs : List Char) : Option Json :=
  let unsigned := match cs with
    | '+' :: rest => rest
    | cs => cs
  let names := fun ws => (ws.map String.toList).contains
  if names [".inf", ".Inf", ".INF"] unsigned || names ["-.inf", "-.Inf", "-.INF"] cs ||
      names [".nan", ".NaN", ".NAN"] cs then some .null
  else match cs with
    | '-' :: rest => (decimalOf? rest).map fun x => .float (-x)
    | _ => (decimalOf? unsigned).map .float

/-- Integers between 64 and 128 bits are refused; longer ones are read as floats. -/
def isOversized (n : Int) : Bool :=
  -Int.ofNat (1 <<< 127) ≤ n && n < Int.ofNat (1 <<< 128)

/-- The document that a plain scalar denotes. -/
def resolve? (cs : List Char) : Option Json :=
  let text := String.ofList cs
  let float := fun (_ : Unit) =>
    if isZeroPadded cs then some (.str text) else some ((floatOf? cs).getD (.str text))
  if text = "" || text = "null" || text = "Null" || text = "NULL" || text = "~" then some .null
  else if text = "true" || text = "True" || text = "TRUE" then some (.bool true)
  else if text = "false" || text = "False" || text = "FALSE" then some (.bool false)
  else match intOf? cs with
    | some n =>
      if Int64.minValue.toInt ≤ n && n < UInt64.size then some (.int n)
      else if isOversized n then none
      else float ()
    | none => float ()

end Reshape.Yaml
