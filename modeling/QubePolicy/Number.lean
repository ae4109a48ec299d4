/-!
# Numbers

The numbers of a log line, of a line index or of a limit: whole, decimal or beyond all bounds.

* `Number`           the three kinds;
* `Number.scaled`    the number `mantissa * 10 ^ exponent`, in its simplest kind;
* `Number.render`    its text: positional from `1e-6` up to `1e21`, else with an exponent.
-/

namespace QubePolicy

inductive Number where
  | whole (n : Int)
  /-- `mantissa / 10 ^ places`, with `places` not zero and as few as possible -/
  | decimal (mantissa : Int) (places : Nat)
  | infinite (negative : Bool)
  deriving DecidableEq, Repr

namespace Number

/-! ## construction -/

def tenTo (n : Nat) : Nat := Nat.pow 10 n

/-- A natural number without the zeros at its end, of which there are at most `bound`, and how
many they are. -/
def stripZeros : Nat → Nat → Nat × Nat
  | 0, n => (n, 0)
  | bound + 1, n =>
    if n % 10 = 0 then
      let (m, k) := stripZeros bound (n / 10)
      (m, k + 1)
    else (n, 0)

def scaled (negative : Bool) (mantissa : Nat) (exponent : Int) : Number :=
  let sign : Int := if negative then -1 else 1
  if 0 ≤ exponent then .whole (sign * (mantissa * tenTo exponent.toNat : Nat))
  else
    let places := (-exponent).toNat
    let (m, k) := stripZeros places mantissa
    if k = places then .whole (sign * m) else .decimal (sign * m) (places - k)

/-! ## text -/

def digitsOf (n : Nat) : List Char := Nat.toDigits 10 n

/-- The digits `ds` with the point after the first `point` of them. From `1e-6` up to `1e21` the
point is written in its place, elsewhere after the first digit with an exponent behind. -/
def layout (ds : List Char) (point : Int) : List Char :=
  let count : Int := ds.length
  if count ≤ point && point ≤ 21 then ds ++ List.replicate (point - count).toNat '0'
  else if 0 < point && point ≤ 21 then ds.take point.toNat ++ '.' :: ds.drop point.toNat
  else if -6 < point && point ≤ 0 then '0' :: '.' :: (List.replicate (-point).toNat '0' ++ ds)
  else
    let e := point - 1
    let head := match ds with
      | [] => []
      | [d] => [d]
      | d :: ds => d :: '.' :: ds
    head ++ 'e' :: (if e < 0 then '-' else '+') :: digitsOf e.natAbs

def renderScaled (mantissa : Int) (places : Nat) : List Char :=
  let ds := digitsOf mantissa.natAbs
  let (stripped, _) := stripZeros ds.length mantissa.natAbs
  let sign := if mantissa < 0 then ['-'] else []
  if mantissa = 0 then ['0']
  else sign ++ layout (digitsOf stripped) (ds.length - places)

def renderChars : Number → List Char
  | .whole n =>
    if n.natAbs < tenTo 21 then (if n < 0 then ['-'] else []) ++ digitsOf n.natAbs
    else renderScaled n 0
  | .decimal mantissa places => renderScaled mantissa places
  | .infinite negative => (if negative then ['-'] else []) ++ "Infinity".toList

def render (x : Number) : String := String.ofList x.renderChars

/-! ## views -/

def toInt? : Number → Option Int
  | .whole n => some n
  | _ => none

def toNat? : Number → Option Nat
  | .whole (.ofNat n) => some n
  | _ => none

theorem toNat?_eq_some_iff {x : Number} {n : Nat} : x.toNat? = some n ↔ x = .whole n := by
  constructor
  · intro h
    match x, h with
    | .whole (.ofNat m), h => cases h; rfl
  · rintro rfl
    rfl

end Number

end QubePolicy
