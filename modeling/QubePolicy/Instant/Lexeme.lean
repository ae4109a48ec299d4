import QubePolicy.Instant
import QubePolicy.Text.Blank

/-!
# Lexemes of a date text

A text for an instant is read as numbers, words and marks, whatever its form.

* `Lexeme`         a number, a mark, a word, a blank, or what says nothing;
* `Lexeme.scan`    the lexemes of a text;
* `Keyword`        what a word says: a month, a half of the day, a zone, or nothing;
* `thousandths`    the value of a number behind a decimal point.
-/

namespace QubePolicy.Instant

/-! ## lexemes -/

inductive Lexeme where
  /-- the value of a run of digits, and how many digits it has -/
  | number (value digits : Nat)
  /-- one of `: - + . )` -/
  | mark (c : Char)
  | word (letters : List Char)
  | blank
  | other
  deriving DecidableEq, Repr

/-- The greatest number of digits that count, zeros in front aside. -/
def digitLimit : Nat := 9

namespace Lexeme

def isMark (c : Char) : Bool := c == ':' || c == '-' || c == '+' || c == '.' || c == ')'

def isLineSeparator (c : Char) : Bool := c == '\u2028' || c == '\u2029'

/-- Letters are all characters from `A` on that are not blank, and the two line separators. -/
def isLetter (c : Char) : Bool := decide ('A' ≤ c) && (!Text.isBlank c || isLineSeparator c)

def ofDigits (ds : List Char) : Lexeme :=
  .number (Nat.ofDigitChars 10 ((ds.dropWhile (· == '0')).take digitLimit) 0) ds.length

/-- The text behind the bracket that closes `depth` open ones, nothing if they stay open. -/
def afterBrackets : Nat → List Char → List Char
  | 0, cs => cs
  | _, [] => []
  | depth + 1, c :: cs =>
    if c = '(' then afterBrackets (depth + 2) cs
    else if c = ')' then afterBrackets depth cs
    else afterBrackets (depth + 1) cs

theorem length_afterBrackets_le (depth : Nat) (cs : List Char) :
    (afterBrackets depth cs).length ≤ cs.length := by
  induction cs generalizing depth with
  | nil => cases depth <;> exact Nat.le_refl _
  | cons c cs ih =>
    cases depth with
    | zero => exact Nat.le_refl _
    | succ depth =>
      unfold afterBrackets
      have h := fun d => Nat.le_succ_of_le (ih d)
      split
      · exact h _
      · split <;> exact h _

def scanFrom : List Char → List Lexeme
  | [] => []
  | c :: cs =>
    if c.isDigit then
      ofDigits (c :: cs.takeWhile Char.isDigit) :: scanFrom (cs.dropWhile Char.isDigit)
    else if isMark c then .mark c :: scanFrom cs
    else if isLetter c then
      .word ((c :: cs.takeWhile isLetter).map Char.toLower) :: scanFrom (cs.dropWhile isLetter)
    else if c = '(' then .other :: scanFrom (afterBrackets 1 cs)
    else if Text.isBlank c then .blank :: scanFrom cs
    else .other :: scanFrom cs
  termination_by cs => cs.length
  decreasing_by
  · have := (List.dropWhile_suffix (l := cs) Char.isDigit).length_le
    simp only [List.length_cons]; omega
  · simp
  · have := (List.dropWhile_suffix (l := cs) isLetter).length_le
    simp only [List.length_cons]; omega
  · have := length_afterBrackets_le 1 cs
    simp only [List.length_cons]; omega
  · simp
  · simp

/-- The lexemes of a string. A zero character ends it. -/
def scan (s : String) : List Lexeme := scanFrom (s.toList.takeWhile (· != '\x00'))

end Lexeme

/-! ## keywords -/

inductive Keyword where
  | month (number : Nat)
  | half (hours : Nat)
  | zone (hours : Int)
  | unknown
  deriving DecidableEq, Repr

namespace Keyword

def months : List String :=
  ["jan", "feb", "mar", "apr", "may", "jun", "jul", "aug", "sep", "oct", "nov", "dec"]

def words : List (String × Keyword) :=
  [("am", .half 0), ("pm", .half 12),
   ("ut", .zone 0), ("utc", .zone 0), ("z", .zone 0), ("gmt", .zone 0),
   ("cdt", .zone (-5)), ("cst", .zone (-6)), ("edt", .zone (-4)), ("est", .zone (-5)),
   ("mdt", .zone (-6)), ("mst", .zone (-7)), ("pdt", .zone (-7)), ("pst", .zone (-8))]

/-- The keyword of a word. A month is known by its first three letters. -/
def ofLetters (letters : List Char) : Keyword :=
  match months.findIdx? (· == String.ofList (letters.take 3)) with
  | some index => .month (index + 1)
  | none => (words.lookup (String.ofList letters)).getD .unknown

end Keyword

/-! ## fractions -/

/-- The thousandths of a number behind a point, from the value and the count of its digits. Of more
than nine digits, nine count. -/
def thousandths (value digits : Nat) : Nat :=
  value * Nat.pow 10 (3 - digits) / Nat.pow 10 (min digits digitLimit - 3)

end QubePolicy.Instant
