import QubePolicy.Json

/-!
# JSON texts are single lines

The text of a value has no line feed: inside a string it is escaped, and nothing else needs one.

* `Number.lineFeed_not_mem_renderChars`   the text of a number has none;
* `Json.lineFeed_not_mem_renderString`    nor has that of a string;
* `Json.lineFeed_not_mem_renderChars`     nor has that of any value.
-/

namespace QubePolicy

/-! ## numbers -/

namespace Number

theorem lineFeed_not_mem_digitsOf (n : Nat) : '\n' ∉ digitsOf n := by
  intro h
  have hdigit : '\n'.isDigit = true := Nat.isDigit_of_mem_toDigits (by decide) (by decide) h
  cases hdigit

theorem lineFeed_not_mem_layout {ds : List Char} (h : '\n' ∉ ds) (point : Int) :
    '\n' ∉ layout ds point := by
  have htake (n : Nat) : '\n' ∉ ds.take n := fun hmem => h (List.mem_of_mem_take hmem)
  have hdrop (n : Nat) : '\n' ∉ ds.drop n := fun hmem => h (List.mem_of_mem_drop hmem)
  have hexponent := lineFeed_not_mem_digitsOf (point - 1).natAbs
  unfold layout
  simp only
  split
  · simp [h]
  · split
    · simp [htake, hdrop]
    · split
      · simp [h]
      · have hsign : '\n' ≠ if point - 1 < 0 then '-' else '+' := by split <;> decide
        rcases ds with _ | ⟨d, _ | ⟨d', ds⟩⟩ <;> simp_all

theorem lineFeed_not_mem_renderScaled (mantissa : Int) (places : Nat) :
    '\n' ∉ renderScaled mantissa places := by
  unfold renderScaled
  simp only
  split
  · decide
  · have hlayout := lineFeed_not_mem_layout (lineFeed_not_mem_digitsOf
      (stripZeros (digitsOf mantissa.natAbs).length mantissa.natAbs).1)
      ((digitsOf mantissa.natAbs).length - places)
    split <;> simp [hlayout]

theorem lineFeed_not_mem_renderChars (x : Number) : '\n' ∉ x.renderChars := by
  cases x with
  | whole n =>
    rw [renderChars]
    split
    · have hdigits := lineFeed_not_mem_digitsOf n.natAbs
      split <;> simp [hdigits]
    · exact lineFeed_not_mem_renderScaled n 0
  | decimal mantissa places => exact lineFeed_not_mem_renderScaled mantissa places
  | infinite negative => cases negative <;> decide

end Number

namespace Json

/-! ## strings -/

theorem lineFeed_not_mem_escape (c : Char) : '\n' ∉ escape c := by
  have hdigit : ∀ n < 16, '\n' ≠ Nat.digitChar n := by decide
  unfold escape
  split
  · decide
  split
  · decide
  split
  · decide
  split
  · decide
  split
  · decide
  next hc =>
    split
    · decide
    split
    · decide
    split
    · simp [hdigit (c.toNat / 16) (by omega), hdigit (c.toNat % 16) (by omega)]
    · exact fun h => hc (List.mem_singleton.mp h).symm

theorem lineFeed_not_mem_renderString (s : String) : '\n' ∉ renderString s := by
  have hescaped : '\n' ∉ s.toList.flatMap escape := by
    intro h
    obtain ⟨c, -, hc⟩ := List.mem_flatMap.mp h
    exact lineFeed_not_mem_escape c hc
  unfold renderString
  simp [hescaped]

theorem lineFeed_not_mem_renderNumber (x : Number) : '\n' ∉ renderNumber x := by
  unfold renderNumber
  split
  · decide
  · exact x.lineFeed_not_mem_renderChars

/-! ## values -/

mutual

/-- **The text of a value is a single line.** -/
theorem lineFeed_not_mem_renderChars : (v : Json) → '\n' ∉ v.renderChars
  | .null => by decide
  | .bool true => by decide
  | .bool false => by decide
  | .number x => lineFeed_not_mem_renderNumber x
  | .string s => lineFeed_not_mem_renderString s
  | .array items => by
    have hitems := lineFeed_not_mem_renderItems items
    rw [renderChars]
    simp [hitems]
  | .object members => by
    have hmembers := lineFeed_not_mem_renderMembers members
    rw [renderChars]
    simp [hmembers]

theorem lineFeed_not_mem_renderItems : (items : List Json) → '\n' ∉ renderItems items
  | [] => by decide
  | [v] => lineFeed_not_mem_renderChars v
  | v :: w :: vs => by
    have hv := lineFeed_not_mem_renderChars v
    have hvs := lineFeed_not_mem_renderItems (w :: vs)
    rw [renderItems]
    simp [hv, hvs]

theorem lineFeed_not_mem_renderMembers : (members : List (String × Json)) →
    '\n' ∉ renderMembers members
  | [] => by decide
  | [(k, v)] => by
    have hk := lineFeed_not_mem_renderString k
    have hv := lineFeed_not_mem_renderChars v
    rw [renderMembers]
    simp [hk, hv]
  | (k, v) :: m :: ms => by
    have hk := lineFeed_not_mem_renderString k
    have hv := lineFeed_not_mem_renderChars v
    have hms := lineFeed_not_mem_renderMembers (m :: ms)
    rw [renderMembers]
    simp [hk, hv, hms]

end

end Json

end QubePolicy
