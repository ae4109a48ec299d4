/-!
# Widths and order of text in 16-bit units

Columns, spans and name order count 16-bit code units: a character below `U+10000` is one
unit, every other one is a pair of surrogates.

* `charWidth`, `unitsOf`     the number and the values of the units of a character;
* `width`, `units`           the number of units of a text and of a string;
* `ofUnits`                  the text of a sequence of units;
* `takeUnits`, `dropUnits`   a text cut after a number of units;
* `before`, `sort`           the order of strings unit by unit, and sorting by it.
-/

namespace QubePolicy.Text

/-! ## units of a character -/

def charWidth (c : Char) : Nat := if c.toNat < 0x10000 then 1 else 2

theorem charWidth_pos (c : Char) : 0 < charWidth c := by
  unfold charWidth; split <;> decide

/-- The units of a character: itself, or its two surrogates. -/
def unitsOf (c : Char) : List Nat :=
  if c.toNat < 0x10000 then [c.toNat]
  else
    let above := c.toNat - 0x10000
    [0xD800 + above / 0x400, 0xDC00 + above % 0x400]

theorem length_unitsOf (c : Char) : (unitsOf c).length = charWidth c := by
  unfold unitsOf charWidth; split <;> rfl

/-- The text of a sequence of units. A surrogate without its partner stands for U+FFFD. -/
def ofUnits : List Nat → List Char
  | [] => []
  | u :: us =>
    if 0xD800 ≤ u && u ≤ 0xDBFF then
      match us with
      | v :: vs =>
        if 0xDC00 ≤ v && v ≤ 0xDFFF then
          Char.ofNat (0x10000 + (u - 0xD800) * 0x400 + (v - 0xDC00)) :: ofUnits vs
        else '\ufffd' :: ofUnits (v :: vs)
      | [] => ['\ufffd']
    else if 0xDC00 ≤ u && u ≤ 0xDFFF then '\ufffd' :: ofUnits us
    else Char.ofNat u :: ofUnits us

/-! ## width -/

def width : List Char → Nat
  | [] => 0
  | c :: cs => charWidth c + width cs

@[simp] theorem width_nil : width [] = 0 := rfl

@[simp] theorem width_cons (c : Char) (cs : List Char) :
    width (c :: cs) = charWidth c + width cs := rfl

@[simp] theorem width_append (a b : List Char) : width (a ++ b) = width a + width b := by
  induction a with
  | nil => simp
  | cons c a ih => simp [ih, Nat.add_assoc]

theorem width_eq_zero {cs : List Char} : width cs = 0 ↔ cs = [] := by
  cases cs with
  | nil => simp
  | cons c cs => have := charWidth_pos c; simp; omega

def units (s : String) : Nat := width s.toList

/-! ## cutting -/

/-- The longest beginning of at most `n` units; a pair of surrogates is never cut. -/
def takeUnits : Nat → List Char → List Char
  | _, [] => []
  | n, c :: cs => if charWidth c ≤ n then c :: takeUnits (n - charWidth c) cs else []

def dropUnits : Nat → List Char → List Char
  | _, [] => []
  | n, c :: cs => if charWidth c ≤ n then dropUnits (n - charWidth c) cs else c :: cs

theorem takeUnits_append_dropUnits (n : Nat) (cs : List Char) :
    takeUnits n cs ++ dropUnits n cs = cs := by
  induction cs generalizing n with
  | nil => rfl
  | cons c cs ih => unfold takeUnits dropUnits; split <;> simp [ih]

theorem takeUnits_width (a b : List Char) : takeUnits (width a) (a ++ b) = a := by
  induction a with
  | nil =>
    cases b with
    | nil => rfl
    | cons c b => have := charWidth_pos c; simp [takeUnits]; omega
  | cons c a ih => simp [takeUnits, ih]

theorem dropUnits_width (a b : List Char) : dropUnits (width a) (a ++ b) = b := by
  have h := takeUnits_append_dropUnits (width a) (a ++ b)
  rw [takeUnits_width] at h
  exact List.append_cancel_left h

/-! ## order -/

def unitList (s : String) : List Nat := s.toList.flatMap unitsOf

/-- `a` stands before `b` when its units come first at the first difference. -/
def before (a b : String) : Bool := decide (unitList a < unitList b)

def sort (names : List String) : List String := names.mergeSort fun a b => !before b a

end QubePolicy.Text
