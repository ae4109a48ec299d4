import QubePolicy.Diagnostic

/-!
# Values that pass their checks

* `map_eq_valid_iff`, `apply_eq_valid_iff`, `ofExcept_eq_valid_iff`   a combination is valid when
                        all of its parts are;
* `Checked.Reasoned`    what is refused is refused for a reason, also in a combination;
* `Checked.All`         whatever speaks against a value has a property, also in a combination.
-/

namespace QubePolicy.Checked

variable {α β : Type}

/-! ## valid values -/

theorem map_eq_valid_iff {f : α → β} {a : Checked α} {b : β} :
    f <$> a = .valid b ↔ ∃ x, a = .valid x ∧ f x = b := by
  show map f a = .valid b ↔ _
  cases a with
  | valid x => simp [map]
  | invalid fs => simp [map]

theorem apply_eq_valid_iff {f : Checked (α → β)} {a : Checked α} {b : β} :
    f <*> a = .valid b ↔ ∃ g x, f = .valid g ∧ a = .valid x ∧ g x = b := by
  show apply f a = .valid b ↔ _
  cases f with
  | valid g =>
    cases a with
    | valid x => simp [apply]
    | invalid fs => simp [apply]
  | invalid fs => simp [apply]

theorem ofExcept_eq_valid_iff {place : Place} {e : Except Problem α} {a : α} :
    ofExcept place e = .valid a ↔ e = .ok a := by
  cases e with
  | ok x => simp [ofExcept]
  | error p => simp [ofExcept]

theorem pure_eq_valid_iff {a b : α} : (pure a : Checked α) = .valid b ↔ a = b := by
  show valid a = valid b ↔ _
  simp

/-! ## reasons -/

/-- If the value is refused, something is told. -/
def Reasoned (a : Checked α) : Prop := a ≠ .invalid []

theorem reasoned_valid (a : α) : (valid a).Reasoned := by
  simp [Reasoned]

theorem reasoned_ofExcept (place : Place) (e : Except Problem α) : (ofExcept place e).Reasoned := by
  cases e with
  | ok a => exact reasoned_valid a
  | error p => simp [Reasoned, ofExcept]

theorem Reasoned.map {a : Checked α} (ha : a.Reasoned) (f : α → β) : (f <$> a).Reasoned := by
  cases a with
  | valid x => exact reasoned_valid (f x)
  | invalid fs =>
    intro h
    have : fs = [] := by injection h
    exact ha (by rw [this])

theorem Reasoned.apply {f : Checked (α → β)} (hf : f.Reasoned) {a : Checked α} (ha : a.Reasoned) :
    (f <*> a).Reasoned := by
  show Checked.Reasoned (Checked.apply f a)
  cases f with
  | valid g =>
    cases a with
    | valid x => exact reasoned_valid (g x)
    | invalid fs => simpa [Reasoned, Checked.apply, findings] using ha
  | invalid fs =>
    have hfs : fs ≠ [] := fun h => hf (by rw [h])
    simp [Reasoned, Checked.apply, findings, hfs]

/-! ## all findings -/

def All (P : Finding → Prop) (a : Checked α) : Prop := ∀ f ∈ a.findings, P f

variable {P Q : Finding → Prop}

theorem all_valid (a : α) : (valid a).All P := fun _ hf => absurd hf List.not_mem_nil

theorem all_ofExcept {place : Place} {e : Except Problem α}
    (h : ∀ p, e = .error p → P ⟨p, place⟩) : (ofExcept place e).All P := by
  cases e with
  | ok a => exact all_valid a
  | error p =>
    intro f hf
    rw [List.mem_singleton.mp hf]
    exact h p rfl

theorem all_refused {place : Place} {p : Problem} (h : P ⟨p, place⟩) :
    (ofExcept place (.error p) : Checked α).All P :=
  all_ofExcept fun _ hp => by cases hp; exact h

theorem All.imp {a : Checked α} (ha : a.All P) (h : ∀ f, P f → Q f) : a.All Q :=
  fun f hf => h f (ha f hf)

theorem All.map {a : Checked α} (ha : a.All P) (f : α → β) : (f <$> a).All P := by
  unfold All
  rwa [findings_map]

theorem All.apply {f : Checked (α → β)} (hf : f.All P) {a : Checked α} (ha : a.All P) :
    (f <*> a).All P := by
  unfold All
  rw [findings_apply]
  exact List.forall_mem_append.mpr ⟨hf, ha⟩

end QubePolicy.Checked
