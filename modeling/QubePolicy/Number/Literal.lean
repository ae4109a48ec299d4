import QubePolicy.Json.Reader
import QubePolicy.Text.Blank

/-!
# Numbers as arguments

* `Number.ofLiteral?`   the number of a text: decimal with an optional sign, fraction and
                        exponent, or whole in base 16, 8 or 2 behind `0x`, `0o` or `0b`, or
                        `Infinity`. Blanks around it do not matter, and a blank text is zero.
-/

namespace QubePolicy.Number

def inBase? (base : Nat) (cs : List Char) : Option Number :=
  if cs = [] then none
  else (cs.foldlM (fun n c => do
    let digit ← Json.Reader.hexDigit? c
    if digit < base then some (n * base + digit) else none) 0).map fun n => ofDecimal false n 0

def decimal? (negative : Bool) (cs : List Char) : Option Number := do
  let whole := cs.takeWhile Char.isDigit
  let rest := cs.dropWhile Char.isDigit
  let (places, rest) := match rest with
    | '.' :: rest => (rest.takeWhile Char.isDigit, rest.dropWhile Char.isDigit)
    | rest => ([], rest)
  if whole.isEmpty && places.isEmpty then none
  let (exponent, rest) ← Json.Reader.exponent rest
  if rest = [] then
    return ofDecimal negative (Json.Reader.digitsValue (whole ++ places)) (exponent - places.length)
  else none

def signed? (negative : Bool) (cs : List Char) : Option Number :=
  if cs = "Infinity".toList then some (.infinite negative) else decimal? negative cs

def ofLiteral? (s : String) : Option Number :=
  match Text.trim s.toList with
  | [] => some (.whole 0)
  | '0' :: 'x' :: cs | '0' :: 'X' :: cs => inBase? 16 cs
  | '0' :: 'o' :: cs | '0' :: 'O' :: cs => inBase? 8 cs
  | '0' :: 'b' :: cs | '0' :: 'B' :: cs => inBase? 2 cs
  | '+' :: cs => signed? false cs
  | '-' :: cs => signed? true cs
  | cs => signed? false cs

end QubePolicy.Number
