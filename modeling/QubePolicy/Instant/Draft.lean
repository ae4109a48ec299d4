import QubePolicy.Instant.Lexeme

/-!
# Drafts of an instant

While a text is read, the numbers of its date and of its clock are kept in the order of the text.
Which of them is the year is known at the end.

* `Zone`               how far a clock is from universal time;
* `Draft`              what has been read of a text;
* `Draft.civil?`       its year, month and day;
* `Draft.daytime?`     its milliseconds since midnight;
* `Draft.instant?`     the instant that it is.
-/

namespace QubePolicy.Instant

/-! ## zones -/

structure Zone where
  /-- whether the clock is behind universal time -/
  isWest : Bool
  hours : Nat
  /-- not known while they may still follow -/
  minutes : Option Nat
  deriving DecidableEq, Repr

namespace Zone

def universal : Zone := ⟨false, 0, some 0⟩

def ofHours (hours : Int) : Zone := ⟨decide (hours < 0), hours.natAbs, some 0⟩

def isUniversal (z : Zone) : Bool := z.hours == 0 && z.minutes == some 0

/-- The seconds that the zone is ahead, fewer than `2 ^ 31`. -/
def offset? (z : Zone) : Option Int :=
  let seconds := z.hours * 3600 + z.minutes.getD 0 * 60
  if seconds < 2147483648 then some (if z.isWest then -seconds else seconds) else none

end Zone

/-! ## drafts -/

structure Draft where
  date : List Int
  month : Option Nat
  /-- whether the numbers of the date are its year, month and day -/
  isCalendar : Bool
  /-- hour, minute, second and millisecond, as far as they are known -/
  clock : List Nat
  /-- the hours that the half of the day begins with -/
  half : Option Nat
  zone : Option Zone
  deriving DecidableEq, Repr

namespace Draft

def ofDate (date : List Int) : Draft := ⟨date, none, false, [], none, none⟩

def ofCalendar (date : List Int) (clock : List Nat) (zone : Option Zone) : Draft :=
  ⟨date, none, true, clock, none, zone⟩

def isBegun (d : Draft) : Bool := !(d.date.isEmpty && d.clock.isEmpty)

/-! ## date -/

def isDay (n : Int) : Bool := decide (1 ≤ n ∧ n ≤ 31)

/-- The year of a number: from 0 to 49 in this century, from 50 to 99 in the last one. -/
def fullYear (n : Int) : Int :=
  if 0 ≤ n ∧ n ≤ 49 then n + 2000 else if 50 ≤ n ∧ n ≤ 99 then n + 1900 else n

/-- Year, month and day of three numbers. A number that is no day is a year; else the day comes
before the year, and a month that is not named before both. -/
def arranged (d : Draft) (a b c : Int) : Int × Int × Int :=
  match d.month with
  | some month => if isDay a then (fullYear b, month, a) else (fullYear a, month, b)
  | none =>
    if d.isCalendar then (a, b, c)
    else if isDay a then (fullYear c, a, b)
    else (fullYear a, b, c)

def civil? (d : Draft) : Option (Int × Nat × Nat) := do
  let (year, month, day) ← match d.date with
    | [] => none
    | [a] => some (d.arranged a 1 1)
    | [a, b] => some (d.arranged a b 1)
    | a :: b :: c :: _ => some (d.arranged a b c)
  if 1 ≤ month ∧ month ≤ 12 ∧ isDay day then some (year, month.toNat, day.toNat) else none

/-! ## time of day -/

def hour? (d : Draft) : Option Nat :=
  let hour := d.clock.headD 0
  match d.half with
  | none => some hour
  | some start => if hour ≤ 12 then some (hour % 12 + start) else none

/-- The milliseconds since midnight. The hour 24 is the end of the day and nothing else. -/
def daytime? (d : Draft) : Option Nat := do
  let hour ← d.hour?
  let minute := d.clock.getD 1 0
  let second := d.clock.getD 2 0
  let ms := d.clock.getD 3 0
  if (hour ≤ 23 ∧ minute ≤ 59 ∧ second ≤ 59 ∧ ms ≤ 999) ∨
      (hour = 24 ∧ minute = 0 ∧ second = 0 ∧ ms = 0) then
    some (((hour * 60 + minute) * 60 + second) * 1000 + ms)
  else none

/-! ## instant -/

/-- The instant of a draft; without a zone it is in universal time. -/
def instant? (d : Draft) : Option Instant := do
  let (year, month, day) ← d.civil?
  let daytime ← d.daytime?
  let offset ← (d.zone.getD .universal).offset?
  ofCivil? year month day (daytime - offset * 1000)

end Draft

end QubePolicy.Instant
