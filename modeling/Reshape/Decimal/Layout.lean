import Reshape.Decimal.Shortest
import Reshape.Text.Numeral

/-!
# Layouts of decimals

How the shortest digits of a double are set out. A layout says which decimal exponents are written
positionally, whether a whole number keeps a point, and which way an exact tie between two equally
short decimals goes.
-/

namespace Reshape.Decimal

structure Layout where
  /-- Exponents below this one are written with an exponent mark. -/
  least : Option Int
  /-- Exponents from this one on are written with an exponent mark. -/
  bound : Option Int
  /-- Does a positional whole number end in `.0`? -/
  keepsPoint : Bool
  tie : Tie

/-- Positional notation, with zeros wherever the digits leave a gap. -/
def positional (keepsPoint : Bool) (d : Digits) : List Char :=
  let size : Int := d.digits.length
  if d.point ≤ 0 then
    '0' :: '.' :: List.replicate (-d.point).toNat '0' ++ d.digits
  else if size ≤ d.point then
    d.digits ++ List.replicate (d.point - size).toNat '0' ++ (if keepsPoint then ['.', '0'] else [])
  else
    d.digits.take d.point.toNat ++ '.' :: d.digits.drop d.point.toNat

/-- One digit before the point and a signed exponent. -/
def scientific (d : Digits) : List Char :=
  let mantissa := match d.digits with
    | [] => ['0']
    | [c] => [c]
    | c :: cs => c :: '.' :: cs
  let exponent := d.point - 1
  let sign := if exponent < 0 then '-' else '+'
  mantissa ++ 'e' :: sign :: Nat.toDigits 10 exponent.natAbs

/-- A finite double in the given layout. Zero has the digit `0` and keeps its sign. -/
def Layout.write (layout : Layout) (x : Float) : List Char :=
  let b := Binary.ofFloat x
  let d : Digits := if b.significand = 0 then ⟨['0'], 1⟩ else shortest layout.tie b
  let exponent := d.point - 1
  let low := layout.least.any (exponent < ·)
  let high := layout.bound.any (· ≤ exponent)
  let body := if low || high then scientific d else positional layout.keepsPoint d
  if isNegative x then '-' :: body else body

/-- The digits of a double without fractional part, all of them. -/
def whole (x : Float) : List Char :=
  let body := Nat.toDigits 10 (Binary.ofFloat x).whole
  if isNegative x then '-' :: body else body

end Reshape.Decimal
