import QubePolicy.Fault

/-!
# Outcomes

How a computation that can fail comes to its result.

* `Except.bind_eq_ok_iff`, `Except.map_eq_ok_iff`   each of its steps has a result;
* `Except.bind_eq_error_iff`      or one of them has none;
* `Except.toOption_eq_some_iff`   the result without the reason why there is none;
* `Except.exists_of_isOk`, `Except.exists_of_isOk_eq_false`   what is left beside the result.
-/

namespace QubePolicy

variable {ε α β σ : Type}

theorem Except.bind_eq_ok_iff {x : Except ε α} {f : α → Except ε β} {b : β} :
    (x >>= f) = .ok b ↔ ∃ a, x = .ok a ∧ f a = .ok b := by
  cases x with
  | ok a =>
    show f a = .ok b ↔ _
    simp
  | error e =>
    show Except.error e = Except.ok b ↔ _
    simp

theorem Except.bind_eq_error_iff {x : Except ε α} {f : α → Except ε β} {e : ε} :
    (x >>= f) = .error e ↔ x = .error e ∨ ∃ a, x = .ok a ∧ f a = .error e := by
  cases x with
  | ok a =>
    show f a = .error e ↔ _
    simp
  | error e' =>
    show Except.error e' = Except.error e ↔ _
    simp

theorem Except.map_eq_ok_iff {x : Except ε α} {f : α → β} {b : β} :
    x.map f = .ok b ↔ ∃ a, x = .ok a ∧ f a = b := by
  cases x with
  | ok a => simp [Except.map]
  | error e => simp [Except.map]

theorem Except.map_eq_error_iff {x : Except ε α} {f : α → β} {e : ε} :
    x.map f = .error e ↔ x = .error e := by
  cases x with
  | ok a => simp [Except.map]
  | error e' => simp [Except.map]

theorem Except.toOption_eq_some_iff {x : Except ε α} {a : α} :
    x.toOption = some a ↔ x = .ok a := by
  cases x with
  | ok b => simp [Except.toOption]
  | error e => simp [Except.toOption]

theorem Except.exists_of_isOk {outcome : Except ε α × σ} (h : outcome.1.isOk = true) :
    ∃ a left, outcome = (.ok a, left) := by
  rcases outcome with ⟨x, left⟩
  cases x with
  | ok a => exact ⟨a, left, rfl⟩
  | error e => cases h

theorem Except.exists_of_isOk_eq_false {outcome : Except ε α × σ} (h : outcome.1.isOk = false) :
    ∃ e left, outcome = (.error e, left) := by
  rcases outcome with ⟨x, left⟩
  cases x with
  | ok a => cases h
  | error e => exact ⟨e, left, rfl⟩

end QubePolicy
