import Reshape.Text.Numeral

/-!
# Instants

Moments in universal time, counted from the start of 1970, and their RFC 3339 text. A leap second
is the second before it with `10 ^ 9` nanoseconds or more.
-/

namespace Reshape

structure Instant where
  seconds : Int
  nanos : Nat
deriving DecidableEq, Inhabited

/-- A day of the proleptic Gregorian calendar. -/
structure CivilDate where
  year : Int
  month : Nat
  day : Nat

/-- The civil date `days` after the first of January 1970. Years are counted from March, so that
the leap day ends a year, in eras of 400 years. -/
def CivilDate.ofDays (days : Int) : CivilDate :=
  let z := days + 719468
  let era := z / 146097
  let ofEra := (z % 146097).toNat
  let yearOfEra := (ofEra - ofEra / 1460 + ofEra / 36524 - ofEra / 146096) / 365
  let ofYear := ofEra - (365 * yearOfEra + yearOfEra / 4 - yearOfEra / 100)
  let march := (5 * ofYear + 2) / 153
  let day := ofYear - (153 * march + 2) / 5 + 1
  let month := if march < 10 then march + 3 else march - 9
  let year := era * 400 + Int.ofNat yearOfEra
  ⟨if month ≤ 2 then year + 1 else year, month, day⟩

namespace Instant

/-- Four digits for the years 0 to 9999; any other year has a sign. -/
def yearText (year : Int) : List Char :=
  if year < 0 then '-' :: Text.padded 4 year.natAbs
  else if year ≤ 9999 then Text.padded 4 year.natAbs
  else '+' :: Text.padded 4 year.natAbs

/-- RFC 3339 text in universal time, with the milliseconds cut off. -/
def text (t : Instant) : List Char :=
  let date := CivilDate.ofDays (t.seconds / 86400)
  let clock := (t.seconds % 86400).toNat
  let leap := t.nanos / 1000000000
  let millis := t.nanos % 1000000000 / 1000000
  yearText date.year ++ '-' :: Text.padded 2 date.month ++ '-' :: Text.padded 2 date.day ++
    'T' :: Text.padded 2 (clock / 3600) ++ ':' :: Text.padded 2 (clock / 60 % 60) ++
    ':' :: Text.padded 2 (clock % 60 + leap) ++ '.' :: Text.padded 3 millis ++ ['Z']

end Instant

end Reshape
