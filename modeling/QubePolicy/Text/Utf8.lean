/-!
# UTF-8

Text is stored as bytes. Writing is exact; reading always succeeds, and stands U+FFFD in for
what is not well-formed: one for each longest piece that some character begins with, and one
for each byte that begins none.

* `encode`, `decode`   between a string and its bytes;
* `Partial`            what is known of a character after some of its bytes.
-/

namespace QubePolicy.Text.Utf8

/-! ## writing -/

def encodeChar (c : Char) : List UInt8 :=
  let n := c.toNat
  if n < 0x80 then [n.toUInt8]
  else if n < 0x800 then [(0xC0 + n / 0x40).toUInt8, (0x80 + n % 0x40).toUInt8]
  else if n < 0x10000 then
    [(0xE0 + n / 0x1000).toUInt8, (0x80 + n / 0x40 % 0x40).toUInt8, (0x80 + n % 0x40).toUInt8]
  else
    [(0xF0 + n / 0x40000).toUInt8, (0x80 + n / 0x1000 % 0x40).toUInt8,
      (0x80 + n / 0x40 % 0x40).toUInt8, (0x80 + n % 0x40).toUInt8]

def encode (s : String) : List UInt8 := s.toList.flatMap encodeChar

/-! ## reading -/

def replacement : Char := '\ufffd'

/-- A character of which some bytes are read: the bits so far, the number of bytes still to
come, and the range of the next one. -/
structure Partial where
  bits : Nat
  owed : Nat
  least : Nat
  greatest : Nat
  deriving DecidableEq, Repr

/-- What a byte begins: a whole character, a partial one, or nothing. The range of the second
byte leaves out the longer spellings, the surrogates and what lies above U+10FFFF. -/
def begin (b : Nat) : List Char × Option Partial :=
  if b < 0x80 then ([Char.ofNat b], none)
  else if 0xC2 ≤ b && b ≤ 0xDF then ([], some ⟨b - 0xC0, 1, 0x80, 0xBF⟩)
  else if b = 0xE0 then ([], some ⟨0, 2, 0xA0, 0xBF⟩)
  else if b = 0xED then ([], some ⟨0xD, 2, 0x80, 0x9F⟩)
  else if 0xE1 ≤ b && b ≤ 0xEF then ([], some ⟨b - 0xE0, 2, 0x80, 0xBF⟩)
  else if b = 0xF0 then ([], some ⟨0, 3, 0x90, 0xBF⟩)
  else if 0xF1 ≤ b && b ≤ 0xF3 then ([], some ⟨b - 0xF0, 3, 0x80, 0xBF⟩)
  else if b = 0xF4 then ([], some ⟨4, 3, 0x80, 0x8F⟩)
  else ([replacement], none)

/-- What a byte makes of a partial character. A byte out of range ends it unfinished, and begins
anew. -/
def Partial.feed (p : Partial) (b : Nat) : List Char × Option Partial :=
  if p.least ≤ b && b ≤ p.greatest then
    let bits := p.bits * 0x40 + (b - 0x80)
    if p.owed ≤ 1 then ([Char.ofNat bits], none)
    else ([], some ⟨bits, p.owed - 1, 0x80, 0xBF⟩)
  else
    let (out, next) := begin b
    (replacement :: out, next)

def decodeFrom : Option Partial → List UInt8 → List Char
  | none, [] => []
  | some _, [] => [replacement]
  | none, b :: bs =>
    let (out, next) := begin b.toNat
    out ++ decodeFrom next bs
  | some p, b :: bs =>
    let (out, next) := p.feed b.toNat
    out ++ decodeFrom next bs

def decode (bytes : List UInt8) : String := String.ofList (decodeFrom none bytes)

end QubePolicy.Text.Utf8
