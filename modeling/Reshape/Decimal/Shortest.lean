/-!
# Shortest decimals

The fewest decimal digits that single out a double among its neighbours, found in exact arithmetic.
A positive double is `m * 2 ^ q`; the reals that round to it reach half way to each neighbour, both
ends included exactly when `m` is even. The grids of one, two, … seventeen significant digits are
tried in turn, and on each grid only the two points next to the double can lie in that interval.
-/

namespace Reshape.Decimal

/-- How to choose between two grid points that are equally near. -/
inductive Tie where
  | even
  | up
deriving DecidableEq

/-- A finite double without its sign, as `significand * 2 ^ exponent`. -/
structure Binary where
  significand : Nat
  exponent : Int

def isNegative (x : Float) : Bool :=
  decide (1 <<< 63 ≤ x.toBits.toNat)

def Binary.ofFloat (x : Float) : Binary :=
  let bits := x.toBits.toNat % (1 <<< 63)
  let biased := bits >>> 52
  let fraction := bits % (1 <<< 52)
  if biased = 0 then ⟨fraction, -1074⟩ else ⟨fraction + (1 <<< 52), Int.ofNat biased - 1075⟩

/-- Has the double no fractional part? -/
def Binary.isWhole (b : Binary) : Bool :=
  (b.significand <<< b.exponent.toNat) % (1 <<< (-b.exponent).toNat) = 0

/-- The whole number that a double without fractional part denotes. -/
def Binary.whole (b : Binary) : Nat :=
  (b.significand <<< b.exponent.toNat) >>> (-b.exponent).toNat

/-- Significant digits with the position of the point: `0.digits * 10 ^ point`. -/
structure Digits where
  digits : List Char
  point : Int

/-- The number of digits before the point of a positive `b`; at most zero for fractions that start
with zeros. -/
private def magnitude (b : Binary) : Int :=
  let shift : Nat := 340
  let scaled := (b.significand * Nat.pow 10 shift) <<< b.exponent.toNat >>> (-b.exponent).toNat
  ((Nat.toDigits 10 scaled).length : Int) - shift

/-- The nearest point of the grid of multiples of `10 ^ place` that rounds to `b`. -/
private def onGrid (tie : Tie) (b : Binary) (place : Int) : Option Nat :=
  let quarter := b.exponent - 2
  let unit := Nat.pow 10 place.toNat <<< (-quarter).toNat
  let scale := Nat.pow 10 (-place).toNat <<< quarter.toNat
  let below := if b.significand = 1 <<< 52 && -1074 < b.exponent then 1 else 2
  let value := 4 * b.significand * scale
  let low := (4 * b.significand - below) * scale
  let high := (4 * b.significand + 2) * scale
  let inside := fun c =>
    if b.significand % 2 = 0 then low ≤ c * unit && c * unit ≤ high
    else low < c * unit && c * unit < high
  let floor := value / unit
  match inside floor, inside (floor + 1) with
  | false, false => none
  | true, false => some floor
  | false, true => some (floor + 1)
  | true, true =>
    let twice := 2 * (value % unit)
    if twice < unit then some floor
    else if unit < twice then some (floor + 1)
    else match tie with
      | .up => some (floor + 1)
      | .even => some (if floor % 2 = 0 then floor else floor + 1)

private def ofGrid (c : Nat) (place : Int) : Digits :=
  let ds := Nat.toDigits 10 c
  ⟨(ds.reverse.dropWhile (· == '0')).reverse, place + ds.length⟩

/-- The shortest digits of a positive double. -/
def shortest (tie : Tie) (b : Binary) : Digits :=
  let top := magnitude b
  let found := (List.range 17).findSome? fun (n : Nat) =>
    let place := top - Int.ofNat (n + 1)
    (onGrid tie b place).map fun c => ofGrid c place
  found.getD ⟨['0'], 1⟩

end Reshape.Decimal
