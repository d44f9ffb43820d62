/-!
# Decimal numerals

Integers written in ASCII digits, without a plus sign, separators or leading zeros.
-/

namespace Reshape.Text

/-- The digits of `n`, padded with zeros on the left to at least `width` characters. -/
def padded (width n : Nat) : List Char :=
  let ds := Nat.toDigits 10 n
  List.replicate (width - ds.length) '0' ++ ds

def ofInt : Int → List Char
  | .ofNat n => Nat.toDigits 10 n
  | .negSucc n => '-' :: Nat.toDigits 10 (n + 1)

/-- The number a non-empty run of digits denotes. -/
def natOf? (cs : List Char) : Option Nat :=
  if !cs.isEmpty && cs.all Char.isDigit then some (Nat.ofDigitChars 10 cs 0) else none

/-- Reads digits with an optional minus sign. -/
def intOf? : List Char → Option Int
  | '-' :: cs => (natOf? cs).map fun n => -(n : Int)
  | cs => (natOf? cs).map fun n => (n : Int)

theorem natOf?_toDigits (n : Nat) : natOf? (Nat.toDigits 10 n) = some n := by
  have hd : (Nat.toDigits 10 n).all Char.isDigit = true :=
    List.all_eq_true.2 fun c hc => Nat.isDigit_of_mem_toDigits (by decide) (by decide) hc
  have hne : (Nat.toDigits 10 n).isEmpty = false := by
    simp [Nat.toDigits_ne_nil]
  simp [natOf?, hd, hne]

theorem mem_ofInt {n : Int} {c : Char} (h : c ∈ ofInt n) : c = '-' ∨ c.isDigit = true := by
  have hdigit {k : Nat} (h : c ∈ Nat.toDigits 10 k) : c.isDigit = true :=
    Nat.isDigit_of_mem_toDigits (by decide) (by decide) h
  cases n with
  | ofNat n => exact .inr (hdigit h)
  | negSucc n => exact (List.mem_cons.1 h).imp_right hdigit

/-- What is written is read back. -/
theorem intOf?_ofInt (n : Int) : intOf? (ofInt n) = some n := by
  cases n with
  | ofNat n =>
    rw [ofInt, intOf?, natOf?_toDigits]
    · rfl
    · intro cs hcs
      have hsign : '-' ∈ Nat.toDigits 10 n := hcs ▸ List.mem_cons_self
      exact absurd (Nat.isDigit_of_mem_toDigits (by decide) (by decide) hsign) (by decide)
  | negSucc n =>
    rw [ofInt, intOf?, natOf?_toDigits]
    rfl

end Reshape.Text
