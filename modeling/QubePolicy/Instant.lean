/-!
# Instants

* `Instant`           a point in time, in milliseconds from the start of 1970;
* `Instant.ofCivil?`  the instant of a date and a time of day, both in universal time;
* `Instant.render`    its text, `2025-01-31T12:34:56.789Z`.
-/

namespace QubePolicy

structure Instant where
  milliseconds : Int
  deriving DecidableEq, Repr

namespace Instant

/-! ## calendar -/

/-- The days from the start of 1970 to a date. Years are counted from March, so that a leap day
ends its year, and in spans of 400 years of 146097 days. -/
def daysOf (year : Int) (month day : Nat) : Int :=
  let y : Int := if month ≤ 2 then year - 1 else year
  let span := y / 400
  let yearOfSpan := y - span * 400
  let monthFromMarch : Nat := (month + 9) % 12
  let dayOfYear : Int := (153 * monthFromMarch + 2) / 5 + day - 1
  span * 146097 + yearOfSpan * 365 + yearOfSpan / 4 - yearOfSpan / 100 + dayOfYear - 719468

def dateOf (days : Int) : Int × Nat × Nat :=
  let shifted := days + 719468
  let span := shifted / 146097
  let dayOfSpan := (shifted - span * 146097).toNat
  let yearOfSpan :=
    (dayOfSpan - dayOfSpan / 1460 + dayOfSpan / 36524 - dayOfSpan / 146096) / 365
  let dayOfYear := dayOfSpan - (365 * yearOfSpan + yearOfSpan / 4 - yearOfSpan / 100)
  let monthFromMarch := (5 * dayOfYear + 2) / 153
  let day := dayOfYear - (153 * monthFromMarch + 2) / 5 + 1
  let month := if monthFromMarch < 10 then monthFromMarch + 3 else monthFromMarch - 9
  let year : Int := yearOfSpan + span * 400
  (if month ≤ 2 then year + 1 else year, month, day)

def dayLength : Int := 86400000

/-- The instant of a date and of the milliseconds since its midnight. There is none farther than
a hundred million days from the start of 1970. -/
def ofCivil? (year : Int) (month day : Nat) (milliseconds : Int) : Option Instant :=
  let t := daysOf year month day * dayLength + milliseconds
  if t.natAbs ≤ 8640000000000000 then some ⟨t⟩ else none

/-! ## text -/

def padded (count n : Nat) : String :=
  let ds := Nat.toDigits 10 n
  String.ofList (List.replicate (count - ds.length) '0' ++ ds)

/-- Four digits for a year; one with more, or before the year 0, has a sign and six digits. -/
def renderYear (year : Int) : String :=
  if 0 ≤ year && year ≤ 9999 then padded 4 year.toNat
  else (if year < 0 then "-" else "+") ++ padded 6 year.natAbs

def render (t : Instant) : String :=
  let days := t.milliseconds / dayLength
  let rest := (t.milliseconds - days * dayLength).toNat
  let (year, month, day) := dateOf days
  let date := s!"{renderYear year}-{padded 2 month}-{padded 2 day}"
  let time := s!"{padded 2 (rest / 3600000)}:{padded 2 (rest / 60000 % 60)}:{padded 2 (rest / 1000 % 60)}"
  s!"{date}T{time}.{padded 3 (rest % 1000)}Z"

end Instant

end QubePolicy
