import QubePolicy.Json
import QubePolicy.Number.Binary64
import QubePolicy.Text.Units

/-!
# Reading JSON

A text is read strictly: one value, blanks only where the format has them, no trailing commas.

* `Json.Reader.string`   the inside of a string, as 16-bit units;
* `Json.Reader.number`   a number;
* `Json.Reader.value`    any value;
* `Json.parse?`          the value of a whole text.

Each reader gives its result and the rest of the text.
-/

namespace QubePolicy.Json.Reader

def isSpace (c : Char) : Bool := c == ' ' || c == '\t' || c == '\n' || c == '\r'

def skipSpace (cs : List Char) : List Char := cs.dropWhile isSpace

/-! ## strings -/

def hexDigit? (c : Char) : Option Nat :=
  if c.isDigit then some (c.toNat - '0'.toNat)
  else if 'a' ≤ c && c ≤ 'f' then some (c.toNat - 'a'.toNat + 10)
  else if 'A' ≤ c && c ≤ 'F' then some (c.toNat - 'A'.toNat + 10)
  else none

def hexUnit? (a b c d : Char) : Option Nat := do
  return (((← hexDigit? a) * 16 + (← hexDigit? b)) * 16 + (← hexDigit? c)) * 16 + (← hexDigit? d)

/-- The unit of a character behind a backslash, other than `u`. -/
def escaped? : Char → Option Nat
  | '"' => some 0x22
  | '\\' => some 0x5C
  | '/' => some 0x2F
  | 'b' => some 8
  | 'f' => some 12
  | 'n' => some 10
  | 'r' => some 13
  | 't' => some 9
  | _ => none

def string : List Char → Option (List Nat × List Char)
  | [] => none
  | '"' :: cs => some ([], cs)
  | '\\' :: 'u' :: a :: b :: c :: d :: cs => do
    let unit ← hexUnit? a b c d
    let (units, rest) ← string cs
    return (unit :: units, rest)
  | '\\' :: c :: cs => do
    let unit ← escaped? c
    let (units, rest) ← string cs
    return (unit :: units, rest)
  | c :: cs =>
    if c.toNat < 0x20 || c = '\\' then none
    else do
      let (units, rest) ← string cs
      return (Text.unitsOf c ++ units, rest)

def text (cs : List Char) : Option (String × List Char) :=
  (string cs).map fun (units, rest) => (String.ofList (Text.ofUnits units), rest)

/-! ## numbers -/

def digitsValue (ds : List Char) : Nat := Nat.ofDigitChars 10 ds 0

def isDigit (c : Char) : Bool := c.isDigit

/-- The digits of a whole part: a zero alone, or a run that begins with another digit. -/
def wholePart : List Char → Option (List Char × List Char)
  | [] => none
  | c :: cs =>
    if c = '0' then some ([c], cs)
    else if c.isDigit then some (c :: cs.takeWhile isDigit, cs.dropWhile isDigit)
    else none

def fraction : List Char → Option (List Char × List Char)
  | '.' :: cs =>
    match cs.takeWhile isDigit with
    | [] => none
    | ds => some (ds, cs.dropWhile isDigit)
  | cs => some ([], cs)

def exponentDigits (negative : Bool) (cs : List Char) : Option (Int × List Char) :=
  match cs.takeWhile isDigit with
  | [] => none
  | ds =>
    let n : Int := digitsValue ds
    some (if negative then -n else n, cs.dropWhile isDigit)

def exponent : List Char → Option (Int × List Char)
  | c :: cs =>
    if c = 'e' || c = 'E' then
      match cs with
      | '-' :: cs => exponentDigits true cs
      | '+' :: cs => exponentDigits false cs
      | cs => exponentDigits false cs
    else some (0, c :: cs)
  | [] => some (0, [])

def unsigned (negative : Bool) (cs : List Char) : Option (Number × List Char) := do
  let (whole, cs) ← wholePart cs
  let (places, cs) ← fraction cs
  let (e, cs) ← exponent cs
  return (.ofDecimal negative (digitsValue (whole ++ places)) (e - places.length), cs)

def number : List Char → Option (Number × List Char)
  | '-' :: cs => unsigned true cs
  | cs => unsigned false cs

/-! ## values -/

mutual

/-- A value, nested no deeper than `fuel` calls. -/
def value : Nat → List Char → Option (Json × List Char)
  | 0, _ => none
  | fuel + 1, cs =>
    match skipSpace cs with
    | '"' :: cs => (text cs).map fun (s, rest) => (.string s, rest)
    | '[' :: cs =>
      match skipSpace cs with
      | ']' :: rest => some (.array [], rest)
      | cs => (items fuel cs).map fun (vs, rest) => (.array vs, rest)
    | '\x7b' :: cs =>
      match skipSpace cs with
      | '\x7d' :: rest => some (.object [], rest)
      | cs => (members fuel [] cs).map fun (ms, rest) => (.object ms, rest)
    | 'n' :: 'u' :: 'l' :: 'l' :: rest => some (.null, rest)
    | 't' :: 'r' :: 'u' :: 'e' :: rest => some (.bool true, rest)
    | 'f' :: 'a' :: 'l' :: 's' :: 'e' :: rest => some (.bool false, rest)
    | cs => (number cs).map fun (n, rest) => (.number n, rest)

def items : Nat → List Char → Option (List Json × List Char)
  | 0, _ => none
  | fuel + 1, cs => do
    let (v, rest) ← value fuel cs
    match skipSpace rest with
    | ',' :: cs => do
      let (vs, rest) ← items fuel cs
      return (v :: vs, rest)
    | ']' :: rest => return ([v], rest)
    | _ => none

/-- The members up to the closing brace, at least one, behind the ones read before. -/
def members : Nat → List (String × Json) → List Char → Option (List (String × Json) × List Char)
  | 0, _, _ => none
  | fuel + 1, before, cs => do
    match skipSpace cs with
    | '"' :: cs => do
      let (key, rest) ← text cs
      match skipSpace rest with
      | ':' :: cs => do
        let (v, rest) ← value fuel cs
        let all := Json.insert key v before
        match skipSpace rest with
        | ',' :: cs => members fuel all cs
        | '\x7d' :: rest => return (all, rest)
        | _ => none
      | _ => none
    | _ => none

end

end QubePolicy.Json.Reader

namespace QubePolicy.Json

/-- The value of a text that holds one value and nothing else. Every other call of a reader takes
a character, so the fuel never ends before the text. -/
def parse? (s : String) : Option Json :=
  let cs := s.toList
  match Reader.value (2 * cs.length + 2) cs with
  | some (v, rest) => if Reader.skipSpace rest = [] then some v else none
  | none => none

end QubePolicy.Json
