/-!
# Cutting a text at a separator

* `splitAt sep cs`   the parts of `cs` between the separators, at least one;
* `joinWith sep ps`  the parts with one separator between neighbours.

Joining undoes splitting (`joinWith_splitAt`); splitting undoes joining on parts that are free
of the separator (`splitAt_joinWith`), as all parts are (`not_mem_of_mem_splitAt`).
-/

namespace QubePolicy.Text

/-- The parts of a text between the separators; a text without one is a single part. -/
def splitAt (sep : Char) : List Char → List (List Char)
  | [] => [[]]
  | c :: cs =>
    if c = sep then [] :: splitAt sep cs
    else match splitAt sep cs with
      | [] => [[c]]
      | part :: parts => (c :: part) :: parts

def joinWith (sep : Char) : List (List Char) → List Char
  | [] => []
  | [part] => part
  | part :: parts => part ++ sep :: joinWith sep parts

@[simp] theorem joinWith_nil (sep : Char) : joinWith sep [] = [] := rfl

@[simp] theorem joinWith_singleton (sep : Char) (part : List Char) :
    joinWith sep [part] = part := rfl

theorem joinWith_cons (sep : Char) (part : List Char) {parts : List (List Char)}
    (h : parts ≠ []) : joinWith sep (part :: parts) = part ++ sep :: joinWith sep parts := by
  cases parts with
  | nil => exact absurd rfl h
  | cons _ _ => rfl

theorem splitAt_ne_nil (sep : Char) (cs : List Char) : splitAt sep cs ≠ [] := by
  cases cs with
  | nil => simp [splitAt]
  | cons c cs => unfold splitAt; split <;> (try split) <;> simp

theorem joinWith_splitAt (sep : Char) (cs : List Char) : joinWith sep (splitAt sep cs) = cs := by
  induction cs with
  | nil => rfl
  | cons c cs ih =>
    unfold splitAt
    split
    · next h => rw [joinWith_cons _ _ (splitAt_ne_nil sep cs), ih, h, List.nil_append]
    · split
      · next h => exact absurd h (splitAt_ne_nil sep cs)
      · next part parts h =>
        rw [h] at ih
        cases parts with
        | nil => simpa using ih
        | cons _ _ => simpa [joinWith] using ih

theorem splitAt_append (sep : Char) (cs ds : List Char) :
    splitAt sep (cs ++ sep :: ds) = splitAt sep cs ++ splitAt sep ds := by
  induction cs with
  | nil => simp [splitAt]
  | cons c cs ih =>
    rw [List.cons_append, splitAt, splitAt, ih]
    split
    · rfl
    · cases hcs : splitAt sep cs with
      | nil => exact absurd hcs (splitAt_ne_nil sep cs)
      | cons part parts => rfl

theorem splitAt_of_not_mem {sep : Char} {part : List Char} (h : sep ∉ part) :
    splitAt sep part = [part] := by
  induction part with
  | nil => rfl
  | cons c part ih =>
    rw [List.mem_cons, not_or] at h
    rw [splitAt, if_neg (Ne.symm h.1), ih h.2]

theorem splitAt_append_sep {sep : Char} {part : List Char} (h : sep ∉ part) (cs : List Char) :
    splitAt sep (part ++ sep :: cs) = part :: splitAt sep cs := by
  rw [splitAt_append, splitAt_of_not_mem h, List.singleton_append]

theorem splitAt_joinWith {sep : Char} {parts : List (List Char)} (hne : parts ≠ [])
    (h : ∀ part ∈ parts, sep ∉ part) : splitAt sep (joinWith sep parts) = parts := by
  induction parts with
  | nil => exact absurd rfl hne
  | cons part parts ih =>
    have hpart := h part List.mem_cons_self
    cases parts with
    | nil => exact splitAt_of_not_mem hpart
    | cons q parts =>
      rw [joinWith_cons _ _ (List.cons_ne_nil q parts), splitAt_append_sep hpart,
        ih (List.cons_ne_nil q parts) fun p hp => h p (List.mem_cons_of_mem part hp)]

theorem not_mem_of_mem_splitAt {sep : Char} {cs part : List Char} (h : part ∈ splitAt sep cs) :
    sep ∉ part := by
  induction cs generalizing part with
  | nil =>
    rw [List.mem_singleton.mp h]
    exact List.not_mem_nil
  | cons c cs ih =>
    unfold splitAt at h
    split at h
    · rcases List.mem_cons.mp h with rfl | h
      · exact List.not_mem_nil
      · exact ih h
    · next hc =>
      split at h
      · next hnil => exact absurd hnil (splitAt_ne_nil sep cs)
      · next first rest hsplit =>
        rw [hsplit] at ih
        rcases List.mem_cons.mp h with rfl | h
        · rw [List.mem_cons, not_or]
          exact ⟨Ne.symm hc, ih List.mem_cons_self⟩
        · exact ih (List.mem_cons_of_mem first h)

end QubePolicy.Text
