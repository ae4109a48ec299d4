import QubePolicy.Text.Units
import Mathlib.Data.List.Lex

/-!
# The order of units

A string is known by its units, so the order of units leaves no two strings level, and sorting
by it gives one result for all arrangements of a list.

* `ofUnits_unitList`         a text is read back from its units;
* `mergeSort_eq_of_perm`     things with keys of their own, sorted by key, stand in one order only;
* `sort_eq_of_perm`          so do strings;
* `pairwise_before_sort`     and if they differ, each is before the next ones;
* `find?_eq_of_mem_iff`      what is found first among sorted strings depends on the strings only.
-/

namespace QubePolicy.Text

/-! ## units read back -/

theorem not_surrogate (c : Char) : c.toNat < 0xD800 ∨ 0xDFFF < c.toNat ∧ c.toNat < 0x110000 :=
  c.valid

theorem ofUnits_unitsOf_append (c : Char) (us : List Nat) :
    ofUnits (unitsOf c ++ us) = c :: ofUnits us := by
  have hvalid := not_surrogate c
  unfold unitsOf
  by_cases hnarrow : c.toNat < 0x10000
  · have hhigh : (0xD800 ≤ c.toNat && c.toNat ≤ 0xDBFF) = false := by simp; omega
    have hlow : (0xDC00 ≤ c.toNat && c.toNat ≤ 0xDFFF) = false := by simp; omega
    rw [if_pos hnarrow, List.singleton_append, ofUnits.eq_def]
    simp [hhigh, hlow, Char.ofNat_toNat]
  · let above := c.toNat - 0x10000
    have hhigh : (0xD800 ≤ 0xD800 + above / 0x400 && 0xD800 + above / 0x400 ≤ 0xDBFF) = true := by
      simp [above]; omega
    have hlow : (0xDC00 ≤ 0xDC00 + above % 0x400 && 0xDC00 + above % 0x400 ≤ 0xDFFF) = true := by
      simp; omega
    have hboth : 0x10000 + (0xD800 + above / 0x400 - 0xD800) * 0x400 +
        (0xDC00 + above % 0x400 - 0xDC00) = c.toNat := by omega
    rw [if_neg hnarrow]
    show ofUnits ((0xD800 + above / 0x400) :: (0xDC00 + above % 0x400) :: us) = _
    rw [ofUnits, if_pos hhigh]
    simp only [if_pos hlow]
    rw [hboth, Char.ofNat_toNat]

theorem ofUnits_unitList (s : String) : ofUnits (unitList s) = s.toList := by
  unfold unitList
  induction s.toList with
  | nil => rfl
  | cons c cs ih => rw [List.flatMap_cons, ofUnits_unitsOf_append, ih]

theorem unitList_inj {a b : String} : unitList a = unitList b ↔ a = b := by
  constructor
  · intro h
    rw [← String.toList_inj, ← ofUnits_unitList, h, ofUnits_unitList]
  · rintro rfl
    rfl

/-! ## the order -/

theorem not_before_iff {a b : String} : (!before b a) = true ↔ unitList a ≤ unitList b := by
  simp [before]

theorem eq_of_not_before {a b : String} (hba : (!before b a) = true)
    (hab : (!before a b) = true) : a = b :=
  unitList_inj.mp (le_antisymm (not_before_iff.mp hba) (not_before_iff.mp hab))

theorem before_iff {a b : String} : before a b = true ↔ unitList a < unitList b := by
  simp [before]

theorem ne_of_before {a b : String} (h : before a b = true) : a ≠ b := by
  rintro rfl
  exact lt_irrefl _ (before_iff.mp h)

theorem unitList_append (a b : String) : unitList (a ++ b) = unitList a ++ unitList b := by
  rw [unitList, String.toList_append, List.flatMap_append]
  rfl

theorem before_append (lead : String) {a b : String} (h : before a b = true) :
    before (lead ++ a) (lead ++ b) = true := by
  rw [before_iff, unitList_append, unitList_append]
  exact List.append_left_lt (before_iff.mp h)

/-! ## sorting by key -/

variable {α : Type}

theorem pairwise_mergeSort_key (key : α → String) (l : List α) :
    (l.mergeSort fun a b => !before (key b) (key a)).Pairwise
      fun a b => (!before (key b) (key a)) = true := by
  refine List.pairwise_mergeSort (fun a b c hab hbc => ?_) (fun a b => ?_) l
  · rw [not_before_iff] at hab hbc ⊢
    exact le_trans hab hbc
  · rw [Bool.or_eq_true, not_before_iff, not_before_iff]
    exact le_total _ _

/-- **Things with keys of their own, sorted by key, stand in one order only.** -/
theorem mergeSort_eq_of_perm (key : α → String) {l m : List α} (hperm : l.Perm m)
    (hkey : ∀ a ∈ l, ∀ b ∈ l, key a = key b → a = b) :
    (l.mergeSort fun a b => !before (key b) (key a)) =
      m.mergeSort fun a b => !before (key b) (key a) := by
  have hl := List.mergeSort_perm l fun a b => !before (key b) (key a)
  have hm := List.mergeSort_perm m fun a b => !before (key b) (key a)
  refine List.Perm.eq_of_pairwise (fun a b ha hb hab hba => ?_) (pairwise_mergeSort_key key l)
    (pairwise_mergeSort_key key m) (hl.trans (hperm.trans hm.symm))
  exact hkey a (hl.mem_iff.mp ha) b (hperm.mem_iff.mpr (hm.mem_iff.mp hb))
    (eq_of_not_before hab hba)

theorem sort_eq_of_perm {l m : List String} (h : l.Perm m) : sort l = sort m :=
  mergeSort_eq_of_perm id h fun _ _ _ _ hab => hab

/-- **Strings that differ are sorted strictly.** -/
theorem pairwise_before_sort {l : List String} (h : l.Nodup) :
    (sort l).Pairwise fun a b => before a b = true := by
  have hnodup : (sort l).Nodup := (List.mergeSort_perm l _).nodup_iff.mpr h
  refine ((pairwise_mergeSort_key id l).and hnodup).imp fun {a b} ⟨hle, hne⟩ => ?_
  exact before_iff.mpr (lt_of_le_of_ne (not_before_iff.mp hle) (mt unitList_inj.mp hne))

/-! ## searching in order -/

theorem not_before_of_find? {l : List String} {p : String → Bool} {a b : String}
    (hl : l.Pairwise fun a b => (!before b a) = true) (ha : l.find? p = some a) (hb : b ∈ l)
    (hpb : p b = true) : (!before b a) = true := by
  obtain ⟨-, front, back, rfl, hfront⟩ := List.find?_eq_some_iff_append.mp ha
  rcases List.mem_append.mp hb with hb | hb
  · have hnot := hfront b hb
    rw [hpb] at hnot
    cases hnot
  · rcases List.mem_cons.mp hb with rfl | hb
    · exact not_before_iff.mpr le_rfl
    · exact (List.pairwise_cons.mp (List.pairwise_append.mp hl).2.1).1 b hb

/-- **What is found first among sorted strings is the least one with the property**, however often
each of them stands there. -/
theorem find?_eq_of_mem_iff {l m : List String} (hl : l.Pairwise fun a b => (!before b a) = true)
    (hm : m.Pairwise fun a b => (!before b a) = true) (hmem : ∀ a, a ∈ l ↔ a ∈ m)
    (p : String → Bool) : l.find? p = m.find? p := by
  cases hlp : l.find? p with
  | none =>
    rw [List.find?_eq_none] at hlp
    exact (List.find?_eq_none.mpr fun a ha => hlp a ((hmem a).mpr ha)).symm
  | some a =>
    have ha := (hmem a).mp (List.mem_of_find?_eq_some hlp)
    cases hmp : m.find? p with
    | none => exact absurd (List.find?_some hlp) (List.find?_eq_none.mp hmp a ha)
    | some b =>
      have hb := (hmem b).mpr (List.mem_of_find?_eq_some hmp)
      have hab := not_before_of_find? hm hmp ha (List.find?_some hlp)
      have hba := not_before_of_find? hl hlp hb (List.find?_some hmp)
      rw [eq_of_not_before hba hab]

end QubePolicy.Text
