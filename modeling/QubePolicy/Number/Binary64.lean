import QubePolicy.Number

/-!
# Numbers of limited precision

A number that is read keeps 53 binary digits, and is known afterwards by the fewest decimal
digits that still single it out.

* `Binary64`            `mantissa * 2 ^ exponent` with a mantissa below `2 ^ 53`;
* `Binary64.nearest?`   the closest one to a quotient, a tie to the even mantissa;
* `Binary64.shortest`   the fewest decimal digits, of these the closest, that lie in the range of
                        the quotients rounded to it;
* `Number.ofDecimal`    the number of a decimal text.
-/

namespace QubePolicy

structure Binary64 where
  mantissa : Nat
  exponent : Int
  deriving DecidableEq, Repr

namespace Binary64

def twoTo (n : Nat) : Nat := Nat.pow 2 n

def mantissaBound : Nat := 9007199254740992

def mantissaLeast : Nat := 4503599627370496

/-! ## rounding -/

/-- The whole number nearest to a quotient, a tie to the even one. -/
def roundDiv (num den : Nat) : Nat :=
  let q := num / den
  let r := num % den
  if 2 * r < den then q
  else if den < 2 * r then q + 1
  else if q % 2 = 0 then q else q + 1

def shift (num den : Nat) (e : Int) : Nat × Nat :=
  if 0 ≤ e then (num, den * twoTo e.toNat) else (num * twoTo (-e).toNat, den)

/-- The exponent at which the quotient has a mantissa of 53 binary digits, or the least one. -/
def exponentFor (num den : Nat) : Int :=
  let guess : Int := (Nat.log2 num : Int) - Nat.log2 den - 52
  let (n, d) := shift num den guess
  let e := if n < d * mantissaLeast then guess - 1 else guess
  max e (-1074)

/-- The nearest number to the quotient of two positive numbers; there is none when it reaches
`2 ^ 1024`. -/
def nearest? (num den : Nat) : Option Binary64 :=
  let e := exponentFor num den
  let (n, d) := shift num den e
  let m := roundDiv n d
  let (m, e) := if m = mantissaBound then (mantissaLeast, e + 1) else (m, e)
  if e ≤ 971 then some ⟨m, e⟩ else none

/-- The nearest whole number to `n` of those that are kept in 53 binary digits. -/
def roundInt (n : Int) : Int :=
  if n.natAbs ≤ mantissaBound then n
  else match nearest? n.natAbs 1 with
    | some b =>
      let m : Int := b.mantissa * twoTo b.exponent.toNat
      if n < 0 then -m else m
    | none => n

/-! ## fewest digits -/

/-- Quarters of the unit of the mantissa: the least and the greatest that round to `b`. -/
def range (b : Binary64) : Nat × Nat :=
  let below := if b.mantissa = mantissaLeast && -1074 < b.exponent then 1 else 2
  (4 * b.mantissa - below, 4 * b.mantissa + 2)

def contains (b : Binary64) (digits : Nat) (point : Int) : Bool :=
  let (least, greatest) := b.range
  -- both sides as multiples of `2 ^ (exponent - 2) * 10 ^ point`, cleared of denominators
  let scale2 := b.exponent - 2
  let left := digits * (if 0 ≤ point then Number.tenTo point.toNat else 1) *
    (if scale2 < 0 then twoTo (-scale2).toNat else 1)
  let right (k : Nat) := k * (if point < 0 then Number.tenTo (-point).toNat else 1) *
    (if 0 ≤ scale2 then twoTo scale2.toNat else 1)
  if b.mantissa % 2 = 0 then right least ≤ left && left ≤ right greatest
  else right least < left && left < right greatest

def quotient (b : Binary64) : Nat × Nat :=
  if 0 ≤ b.exponent then (b.mantissa * twoTo b.exponent.toNat, 1)
  else (b.mantissa, twoTo (-b.exponent).toNat)

def quotientAt (b : Binary64) (point : Int) : Nat × Nat :=
  let (num, den) := b.quotient
  if 0 ≤ point then (num, den * Number.tenTo point.toNat) else (num * Number.tenTo (-point).toNat, den)

/-- The decimal on the grid `10 ^ point` that rounds to `b`, the nearer one if two do. -/
def onGrid? (b : Binary64) (point : Int) : Option Nat :=
  let (num, den) := b.quotientAt point
  let low := num / den
  let closer := roundDiv num den
  if b.contains closer point then some closer
  else if b.contains low point then some low
  else if b.contains (low + 1) point then some (low + 1)
  else none

/-- The grid of the first digit of the value: `10 ^ point ≤ value < 10 ^ (point + 1)`. -/
def leadingPoint (b : Binary64) : Int :=
  let (num, den) := b.quotient
  if den ≤ num then (Nat.toDigits 10 (num / den)).length - 1
  else -(Nat.toDigits 10 ((den - 1) / num)).length

def search (b : Binary64) : Nat → Int → Nat × Int
  | 0, point => ((b.onGrid? point).getD 0, point)
  | tries + 1, point =>
    match b.onGrid? point with
    | some digits => (digits, point)
    | none => search b tries (point - 1)

/-- The decimal `digits * 10 ^ point` with the fewest digits that rounds to `b`; seventeen
always do. -/
def shortest (b : Binary64) : Nat × Int := b.search 17 b.leadingPoint

end Binary64

/-! ## reading -/

/-- The number of the text `digits * 10 ^ exponent`. A whole number below `2 ^ 53` is itself; a
number of more than 310 places is beyond all bounds, and one below `1e-330` is zero. -/
def Number.ofDecimal (negative : Bool) (digits : Nat) (exponent : Int) : Number :=
  if digits = 0 then .whole 0
  else if exponent = 0 && digits < Binary64.mantissaBound then .whole (if negative then -digits else digits)
  else
    let places : Int := (Nat.toDigits 10 digits).length + exponent
    if 310 < places then .infinite negative
    else if places < -330 then .whole 0
    else
      let num := digits * Number.tenTo exponent.toNat
      let den := Number.tenTo (-exponent).toNat
      match Binary64.nearest? num den with
      | none => .infinite negative
      | some b =>
        if b.mantissa = 0 then .whole 0
        else .scaled negative b.shortest.1 b.shortest.2

end QubePolicy
