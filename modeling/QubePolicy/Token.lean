import QubePolicy.Text.Blank

/-!
# Tokens of a line

A line is read as the runs of characters between separators.

* `Token`        a run and the column of its first unit, counted from 1;
* `Token.scan`   the tokens of a line, left to right;
* `Token.assignment?`   a token of the form `KEY=VALUE`, cut at its first `=`.
-/

namespace QubePolicy

structure Token where
  value : String
  column : Int
  deriving DecidableEq, Repr

namespace Token

def endColumn (t : Token) : Int := t.column + Text.units t.value

/-! ## scanning -/

private theorem length_dropWhile_le {α : Type} (p : α → Bool) (cs : List α) :
    (cs.dropWhile p).length ≤ cs.length :=
  (List.dropWhile_suffix p).length_le

def isWord (c : Char) : Bool := !Text.isSeparator c

/-- The tokens of a text whose first character stands in the given column. -/
def scanFrom (column : Int) : List Char → List Token
  | [] => []
  | c :: cs =>
    if isWord c then
      let word := c :: cs.takeWhile isWord
      ⟨String.ofList word, column⟩ :: scanFrom (column + Text.width word) (cs.dropWhile isWord)
    else scanFrom (column + Text.charWidth c) cs
  termination_by cs => cs.length
  decreasing_by
  · have := length_dropWhile_le isWord cs
    simp only [List.length_cons]; omega
  · simp

def scan (raw : String) : List Token := scanFrom 1 raw.toList

@[simp] theorem scanFrom_nil (column : Int) : scanFrom column [] = [] := by
  rw [scanFrom]

theorem scanFrom_separator {c : Char} (h : isWord c = false) (column : Int) (cs : List Char) :
    scanFrom column (c :: cs) = scanFrom (column + Text.charWidth c) cs := by
  rw [scanFrom, if_neg (by simp [h])]

theorem scanFrom_word {c : Char} (h : isWord c = true) (column : Int) (cs : List Char) :
    scanFrom column (c :: cs) =
      ⟨String.ofList (c :: cs.takeWhile isWord), column⟩ ::
        scanFrom (column + Text.width (c :: cs.takeWhile isWord)) (cs.dropWhile isWord) := by
  rw [scanFrom, if_pos h]

/-! ## assignments -/

/-- The key and the value of a token `KEY=VALUE`. The key ends at the first `=`; a token without
`=` or without a key is no assignment. -/
def assignment? (t : Token) : Option (String × String) :=
  match t.value.toList.takeWhile (· != '='), t.value.toList.dropWhile (· != '=') with
  | c :: key, _ :: value => some (String.ofList (c :: key), String.ofList value)
  | _, _ => none

end Token

end QubePolicy
