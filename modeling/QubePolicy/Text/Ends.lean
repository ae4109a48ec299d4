/-!
# Beginnings and endings

* `rest?`     what follows a list at the beginning of another one;
* `after?`    what follows a string at the beginning of another one;
* `before?`   what stands before a string at the end of another one.
-/

namespace QubePolicy.Text

def rest? {α : Type} [DecidableEq α] : List α → List α → Option (List α)
  | [], xs => some xs
  | _ :: _, [] => none
  | a :: lead, x :: xs => if a = x then rest? lead xs else none

theorem rest?_append {α : Type} [DecidableEq α] (lead rest : List α) :
    rest? lead (lead ++ rest) = some rest := by
  induction lead with
  | nil => rfl
  | cons a lead ih => simp [rest?, ih]

theorem rest?_eq_some_iff {α : Type} [DecidableEq α] {lead xs rest : List α} :
    rest? lead xs = some rest ↔ xs = lead ++ rest := by
  constructor
  · intro h
    induction lead generalizing xs with
    | nil => cases h; rfl
    | cons a lead ih =>
      cases xs with
      | nil => cases h
      | cons x xs =>
        rw [rest?] at h
        split at h
        · next hax => rw [ih h, hax, List.cons_append]
        · cases h
  · rintro rfl
    exact rest?_append lead rest

/-! ## strings -/

def after? (lead s : String) : Option String :=
  (rest? lead.toList s.toList).map String.ofList

def before? (tail s : String) : Option String :=
  (rest? tail.toList.reverse s.toList.reverse).map fun cs => String.ofList cs.reverse

theorem after?_eq_some_iff {lead s rest : String} : after? lead s = some rest ↔ s = lead ++ rest := by
  constructor
  · intro h
    obtain ⟨cs, hcs, rfl⟩ := Option.map_eq_some_iff.mp h
    apply String.toList_injective
    rw [rest?_eq_some_iff.mp hcs]
    simp
  · rintro rfl
    simp [after?, rest?_append]

theorem before?_eq_some_iff {tail s rest : String} :
    before? tail s = some rest ↔ s = rest ++ tail := by
  constructor
  · intro h
    obtain ⟨cs, hcs, rfl⟩ := Option.map_eq_some_iff.mp h
    apply String.toList_injective
    have := congrArg List.reverse (rest?_eq_some_iff.mp hcs)
    simpa using this
  · rintro rfl
    simp [before?, rest?_append]

end QubePolicy.Text
