import Reshape.Json.Basic

/-!
# JSON numbers

Reading a number. A number without point and exponent that fits 64 bits is an integer; any other is
a double. Its significand is the digits that fit 64 bits, and the digits beyond them only count as
powers of ten; the double is that significand multiplied or divided once by the power of ten, so it
can be off by a rounding from the nearest one.
-/

namespace Reshape.Json

/-- The greatest significand. -/
def maxSignificand : Nat := UInt64.size - 1

/-- Appends digits to a significand while it fits, and counts the digits that were left. -/
def accumulate (significand : Nat) : List Char → Nat × Nat
  | [] => (significand, 0)
  | c :: cs =>
    let n := significand * 10 + (c.toNat - '0'.toNat)
    if n ≤ maxSignificand then accumulate n cs else (significand, cs.length + 1)

/-- The power of ten as a double. -/
def powerOfTen (n : Nat) : Float :=
  Float.ofScientific 1 false n

/-- Divides by a power of ten, in steps of `10 ^ 308`. After the first three steps any significand
has become zero. -/
def divideByPower (x : Float) (n : Nat) : Nat → Float
  | 0 => x
  | steps + 1 =>
    if n ≤ 308 then x / powerOfTen n
    else divideByPower (x / powerOfTen 308) (n - 308) steps

/-- The double `significand * 10 ^ exponent`, if it is in range. -/
def doubleOf? (significand : Nat) (exponent : Int) : Option Float :=
  let x := Float.ofNat significand
  match exponent with
  | .ofNat n =>
    if 308 < n then if significand = 0 then some x else none
    else
      let y := x * powerOfTen n
      if y.isFinite then some y else none
  | .negSucc n => some (divideByPower x (n + 1) 4)

/-- The parts of a number's text after its sign: the digits before the point, the digits behind it
and the exponent with its sign. -/
structure NumberText where
  whole : List Char
  fraction : Option (List Char)
  exponent : Option (Bool × List Char)

private def spanDigits (cs : List Char) : List Char × List Char :=
  (cs.takeWhile Char.isDigit, cs.dropWhile Char.isDigit)

private def readFraction? : List Char → Option (Option (List Char) × List Char)
  | '.' :: cs =>
    let (ds, rest) := spanDigits cs
    if ds.isEmpty then none else some (some ds, rest)
  | cs => some (none, cs)

private def readExponent? : List Char → Option (Option (Bool × List Char) × List Char)
  | c :: cs =>
    if c = 'e' || c = 'E' then
      let (negative, cs) := match cs with
        | '-' :: cs => (true, cs)
        | '+' :: cs => (false, cs)
        | cs => (false, cs)
      let (ds, rest) := spanDigits cs
      if ds.isEmpty then none else some (some (negative, ds), rest)
    else some (none, c :: cs)
  | [] => some (none, [])

/-- Reads the text of a number without its sign. A leading zero stands alone. -/
def NumberText.read? (cs : List Char) : Option (NumberText × List Char) := do
  let (whole, rest) := spanDigits cs
  if whole.isEmpty || (whole.head? == some '0' && 1 < whole.length) then none
  let (fraction, rest) ← readFraction? rest
  let (exponent, rest) ← readExponent? rest
  some ({ whole, fraction, exponent }, rest)

/-- The greatest written exponent that is taken at its word. -/
def maxExponent : Nat := (1 <<< 31) - 1

/-- The number that a text denotes. -/
def NumberText.toJson? (t : NumberText) (negative : Bool) : Option Json :=
  let signed := fun (x : Float) => if negative then -x else x
  let (significand, dropped) := accumulate 0 t.whole
  match t.fraction, t.exponent with
  | none, none =>
    if dropped ≠ 0 then (doubleOf? significand dropped).map fun x => .float (signed x)
    else if !negative then some (.int significand)
    else if significand = 0 || 1 <<< 63 < significand then
      some (.float (-(Float.ofNat significand)))
    else some (.int (-(significand : Int)))
  | fraction, exponent =>
    let ds := fraction.getD []
    let (significand, left) := accumulate significand ds
    let shift : Int := (dropped : Int) - (ds.length - left : Nat)
    let (down, es) := exponent.getD (false, ['0'])
    let e := Nat.ofDigitChars 10 es 0
    if maxExponent < e then
      if significand ≠ 0 && !down then none else some (.float (signed 0))
    else
      let x := doubleOf? significand (if down then shift - e else shift + e)
      x.map fun x => .float (signed x)

end Reshape.Json
