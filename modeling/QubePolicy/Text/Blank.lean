import QubePolicy.Text.Units

/-!
# Blank characters

Two sets of characters count as blank, and they differ.

* `isBlank`       the characters cut off both ends of a line;
* `isSeparator`   the characters between two tokens of a line;
* `trim`          a text without the blank characters at its two ends.

Every separator is blank; a no-break space or a line feed is blank and separates nothing.
-/

namespace QubePolicy.Text

/-- The white space and line terminators that are cut off the ends of a line. -/
def blanks : List Char :=
  ['\t', '\n', '\x0b', '\x0c', '\r', ' ', '\u00a0', '\u1680',
   '\u2000', '\u2001', '\u2002', '\u2003', '\u2004', '\u2005', '\u2006', '\u2007', '\u2008',
   '\u2009', '\u200a', '\u2028', '\u2029', '\u202f', '\u205f', '\u3000', '\ufeff']

def isBlank (c : Char) : Bool := blanks.contains c

/-- The characters that stand between two tokens. -/
def separators : List Char := [' ', '\t', '\r', '\x0b', '\x0c']

def isSeparator (c : Char) : Bool := separators.contains c

theorem isBlank_of_isSeparator {c : Char} (h : isSeparator c) : isBlank c := by
  have : c ∈ separators := by simpa [isSeparator] using h
  simp only [separators, List.mem_cons, List.not_mem_nil, or_false] at this
  rcases this with rfl | rfl | rfl | rfl | rfl <;> decide

/-! ## trimming -/

def trimEnd (cs : List Char) : List Char := (cs.reverse.dropWhile isBlank).reverse

def trim (cs : List Char) : List Char := trimEnd (cs.dropWhile isBlank)

@[simp] theorem trim_nil : trim [] = [] := rfl

def trimmed (s : String) : String := String.ofList (trim s.toList)

end QubePolicy.Text
