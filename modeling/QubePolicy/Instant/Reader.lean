import QubePolicy.Instant.Draft

/-!
# Reading instants

A text is read in the calendar form as far as it goes, and what follows a date in the free form.

* `calendar?`         a year, a month or a day, and maybe a time behind a `T`;
* `Draft.step`        one lexeme of the free form;
* `Draft.readFree`    the lexemes of the free form, where a number is known by its neighbours;
* `Instant.parse?`    the instant of a text.
-/

namespace QubePolicy.Instant

def isSign (c : Char) : Bool := c == '+' || c == '-'

/-! ## the calendar form -/

/-- The seconds of a time, maybe with a fraction. At the end of the day all is zero. -/
def seconds? (endOfDay : Bool) : List Lexeme → Option (List Nat × List Lexeme)
  | .mark ':' :: .number second 2 :: .mark '.' :: .number fraction digits :: rest =>
    if second ≤ 59 ∧ (endOfDay → second = 0 ∧ fraction = 0) then
      some ([second, thousandths fraction digits], rest)
    else none
  | .mark ':' :: .number second 2 :: rest =>
    if second ≤ 59 ∧ (endOfDay → second = 0) then some ([second], rest) else none
  | .mark ':' :: _ => none
  | rest => some ([], rest)

/-- The zone at the end of a text: `Z`, an offset such as `+01:30` or `+0130`, or none. -/
def zone? : List Lexeme → Option (Option Zone)
  | [] => some none
  | [.word ['z']] => some (some .universal)
  | [.mark sign, .number n 4] =>
    if isSign sign ∧ n / 100 ≤ 23 ∧ n % 100 ≤ 59 then
      some (some ⟨sign == '-', n / 100, some (n % 100)⟩)
    else none
  | [.mark sign, .number hours 2, .mark ':', .number minutes 2] =>
    if isSign sign ∧ hours ≤ 23 ∧ minutes ≤ 59 then
      some (some ⟨sign == '-', hours, some minutes⟩)
    else none
  | _ => none

def time? : List Lexeme → Option (List Nat × Option Zone)
  | .number hour 2 :: .mark ':' :: .number minute 2 :: rest =>
    if hour ≤ 24 ∧ minute ≤ 59 ∧ (hour = 24 → minute = 0) then do
      let (seconds, rest) ← seconds? (hour == 24) rest
      return (hour :: minute :: seconds, ← zone? rest)
    else none
  | _ => none

/-- What stands behind the numbers of a date: nothing, a time, or what is left to the free form. A
date alone is in universal time. -/
def afterDate (date : List Int) : List Lexeme → Option (Draft × List Lexeme)
  | [] => some (.ofCalendar date [] (some .universal), [])
  | .word ['t'] :: rest => (time? rest).map fun (clock, zone) => (.ofCalendar date clock zone, [])
  | rest => some (.ofDate date, rest)

def afterMonth (year month : Int) : List Lexeme → Option (Draft × List Lexeme)
  | .mark '-' :: .number day 2 :: rest =>
    if 1 ≤ day ∧ day ≤ 31 then afterDate [year, month, day] rest
    else some (.ofDate [year, month], .number day 2 :: rest)
  | .mark '-' :: rest => some (.ofDate [year, month], rest)
  | rest => afterDate [year, month] rest

def afterYear (year : Int) : List Lexeme → Option (Draft × List Lexeme)
  | .mark '-' :: .number month 2 :: rest =>
    if 1 ≤ month ∧ month ≤ 12 then afterMonth year month rest
    else some (.ofDate [year], .number month 2 :: rest)
  | .mark '-' :: rest => some (.ofDate [year], rest)
  | rest => afterDate [year] rest

/-- What the calendar form makes of a text, and the lexemes that it leaves to the free form. A
year has four digits, or six behind a sign; there is no year `-000000`. A text with a time that
is not in the form is refused. -/
def calendar? : List Lexeme → Option (Draft × List Lexeme)
  | .number year 4 :: rest => afterYear year rest
  | .mark '+' :: .number year 6 :: rest => afterYear year rest
  | .mark '-' :: .number year 6 :: rest =>
    if year = 0 then some (.ofDate [], .mark '-' :: rest) else afterYear (-year) rest
  | rest => some (.ofDate [], rest)

/-! ## the free form -/

namespace Draft

def awaits (d : Draft) (n : Nat) : Bool :=
  match d.clock.length with
  | 1 | 2 => decide (n ≤ 59)
  | 3 => decide (n ≤ 999)
  | _ => false

def closeClock (d : Draft) (ns : List Nat) : Draft :=
  { d with clock := (d.clock ++ ns ++ [0, 0, 0, 0]).take 4 }

def endsClock : List Lexeme → Bool
  | [] | .blank :: _ | .word ['z'] :: _ => true
  | .mark c :: _ => isSign c
  | _ => false

def leading (c : Char) (rest : List Lexeme) : Nat := if rest.head? = some (.mark c) then 1 else 0

/-- A number with no mark behind it that tells what it is: minutes of a zone, the end of a clock,
or a number of the date, which a dash may follow. -/
def single (d : Draft) (n : Nat) (rest : List Lexeme) : Option (Draft × Nat) :=
  match d.zone.filter fun z => z.minutes.isNone && decide (n ≤ 59) with
  | some z => some ({ d with zone := some { z with minutes := some n } }, 0)
  | none =>
    if d.awaits n then if endsClock rest then some (d.closeClock [n], 0) else none
    else if d.date.length < 3 then some ({ d with date := d.date ++ [(n : Int)] }, leading '-' rest)
    else none

/-- A number. Before a colon it is one of the clock, and before a point its seconds. -/
def number (d : Draft) (n : Nat) : List Lexeme → Option (Draft × Nat)
  | .mark ':' :: .mark ':' :: _ =>
    if d.clock = [] then some ({ d with clock := [n, 0] }, 2) else none
  | .mark ':' :: rest =>
    if d.clock.length < 4 then some ({ d with clock := d.clock ++ [n] }, 1 + leading '.' rest)
    else none
  | .mark '.' :: rest =>
    if d.awaits n then
      match rest with
      | .number fraction digits :: _ => some (d.closeClock [n, thousandths fraction digits], 2)
      | _ => none
    else (d.single n rest).map fun (d, used) => (d, used + 1)
  | rest => d.single n rest

/-- A word. One that says nothing may stand only before the first number, and not next to it. -/
def word (d : Draft) (letters : List Char) (rest : List Lexeme) : Option (Draft × Nat) :=
  match Keyword.ofLetters letters with
  | .month month => some ({ d with month := some month }, leading '-' rest)
  | .half hours => if d.clock = [] then garbage else some ({ d with half := some hours }, 0)
  | .zone hours => if d.isBegun then some ({ d with zone := some (.ofHours hours) }, 0) else garbage
  | .unknown => garbage
where
  garbage : Option (Draft × Nat) :=
    if d.isBegun then none
    else match rest with
      | .number _ _ :: _ => none
      | _ => some (d, 0)

/-- An offset behind its sign: hours, hours and minutes together, or hours before a colon, whose
minutes may follow. -/
def offset (d : Draft) (isWest : Bool) : List Lexeme → Option (Draft × Nat)
  | .number n digits :: rest =>
    if rest.head? = some (.mark ':') then some (withZone n none, 1)
    else if digits ≤ 2 then some (withZone n (some 0), 1)
    else if digits ≤ 4 then some (withZone (n / 100) (some (n % 100)), 1)
    else none
  | .mark ':' :: _ => some (withZone 0 none, 0)
  | _ => none
where
  withZone (hours : Nat) (minutes : Option Nat) : Draft :=
    { d with zone := some ⟨isWest, hours, minutes⟩ }

/-- A mark. A sign behind a clock or behind universal time begins an offset; another sign or a
closing bracket may stand only before the first number. -/
def mark (d : Draft) (c : Char) (rest : List Lexeme) : Option (Draft × Nat) :=
  if isSign c ∧ (d.clock ≠ [] ∨ d.zone.any Zone.isUniversal) then d.offset (c == '-') rest
  else if (isSign c || c == ')') && d.isBegun then none
  else some (d, 0)

/-- The draft with one lexeme more, and how many of the lexemes behind it are used up with it. -/
def step (d : Draft) (rest : List Lexeme) : Lexeme → Option (Draft × Nat)
  | .number n _ => d.number n rest
  | .word letters => d.word letters rest
  | .mark c => d.mark c rest
  | .blank | .other => some (d, 0)

def readFree (d : Draft) : List Lexeme → Option Draft
  | [] => some d
  | l :: rest =>
    match d.step rest l with
    | none => none
    | some (d, used) => readFree d (rest.drop used)
  termination_by ls => ls.length
  decreasing_by simp only [List.length_drop, List.length_cons]; omega

end Draft

/-! ## texts -/

def parse? (s : String) : Option Instant := do
  let (d, rest) ← calendar? (Lexeme.scan s)
  (← d.readFree rest).instant?

end QubePolicy.Instant
