import QubePolicy.PolicyFile.FieldEdit
import QubePolicy.Proofs.Outcome
import Mathlib.Data.List.InsertIdx

/-!
# What an edit changes

An edit has a result when its index is in its range and its text is one line; it changes the raw
lines and nothing else.

* `PolicyFile.insertLine_eq_ok_iff`, `replaceLine_eq_ok_iff`, `deleteLine_eq_ok_iff`,
  `moveLine_eq_ok_iff`           the four edits by index;
* `PolicyFile.editField_eq_ok`   an edit of a field replaces a line that is a rule;
* `PolicyFile.Plain`             each raw line is one line;
* `PolicyFile.Keeps`             two files of one name and one permission to include, the second one
                                 plain if the first one is;
* `PolicyFile.Edit`, `PolicyFile.editAll`   the edits of a file, and a file after some of them;
* `PolicyFile.plain_editAll`     no edit puts a line feed into a line.
-/

namespace QubePolicy.PolicyFile

variable {f g : PolicyFile} {index : Number}

/-! ## checks -/

theorem toNat?_whole {i j : Nat} : (Number.whole i).toNat? = some j ↔ i = j := by
  rw [Number.toNat?_eq_some_iff, Number.whole.injEq, Int.natCast_inj]

theorem checkIndex_eq_ok_iff {bound i : Nat} :
    f.checkIndex index bound = .ok i ↔ index.toNat? = some i ∧ i < bound := by
  unfold checkIndex
  cases index.toNat? with
  | none => simp [checkIndex.refuse]
  | some j =>
    by_cases hj : j < bound
    · simp only [if_pos hj, Except.ok.injEq, Option.some.injEq]
      constructor
      · rintro rfl
        exact ⟨rfl, hj⟩
      · exact fun h => h.1
    · simp only [if_neg hj, checkIndex.refuse, Option.some.injEq]
      constructor
      · intro h
        cases h
      · rintro ⟨rfl, hi⟩
        exact absurd hi hj

theorem checkSingleLine_eq_ok_iff {raw : String} {u : Unit} :
    f.checkSingleLine raw = .ok u ↔ '\n' ∉ raw.toList := by
  simp [checkSingleLine]

/-! ## edits by index -/

theorem insertLine_eq_ok_iff {raw : String} : f.insertLine index raw = .ok g ↔
    ∃ i, index.toNat? = some i ∧ i < f.raws.length + 1 ∧ '\n' ∉ raw.toList ∧
      g = { f with raws := f.raws.insertIdx i raw } := by
  simp only [insertLine, Except.bind_eq_ok_iff, checkIndex_eq_ok_iff, checkSingleLine_eq_ok_iff]
  constructor
  · rintro ⟨i, ⟨hi, hlt⟩, _, hraw, h⟩
    cases h
    exact ⟨i, hi, hlt, hraw, rfl⟩
  · rintro ⟨i, hi, hlt, hraw, rfl⟩
    exact ⟨i, ⟨hi, hlt⟩, (), hraw, rfl⟩

theorem replaceLine_eq_ok_iff {raw : String} : f.replaceLine index raw = .ok g ↔
    ∃ i, index.toNat? = some i ∧ i < f.raws.length ∧ '\n' ∉ raw.toList ∧
      g = { f with raws := f.raws.set i raw } := by
  simp only [replaceLine, Except.bind_eq_ok_iff, checkIndex_eq_ok_iff, checkSingleLine_eq_ok_iff]
  constructor
  · rintro ⟨i, ⟨hi, hlt⟩, _, hraw, h⟩
    cases h
    exact ⟨i, hi, hlt, hraw, rfl⟩
  · rintro ⟨i, hi, hlt, hraw, rfl⟩
    exact ⟨i, ⟨hi, hlt⟩, (), hraw, rfl⟩

theorem deleteLine_eq_ok_iff : f.deleteLine index = .ok g ↔
    ∃ i, index.toNat? = some i ∧ i < f.raws.length ∧ g = { f with raws := f.raws.eraseIdx i } := by
  simp only [deleteLine, Except.bind_eq_ok_iff, checkIndex_eq_ok_iff]
  constructor
  · rintro ⟨i, ⟨hi, hlt⟩, h⟩
    cases h
    exact ⟨i, hi, hlt, rfl⟩
  · rintro ⟨i, hi, hlt, rfl⟩
    exact ⟨i, ⟨hi, hlt⟩, rfl⟩

theorem moveLine_eq_ok_iff {target : Number} : f.moveLine index target = .ok g ↔
    ∃ i j, index.toNat? = some i ∧ i < f.raws.length ∧ target.toNat? = some j ∧
      j < f.raws.length ∧ g = { f with raws := moveAt f.raws i j } := by
  simp only [moveLine, Except.bind_eq_ok_iff, checkIndex_eq_ok_iff]
  constructor
  · rintro ⟨i, ⟨hi, hilt⟩, j, ⟨hj, hjlt⟩, h⟩
    cases h
    exact ⟨i, j, hi, hilt, hj, hjlt, rfl⟩
  · rintro ⟨i, j, hi, hilt, hj, hjlt, rfl⟩
    exact ⟨i, ⟨hi, hilt⟩, j, ⟨hj, hjlt⟩, rfl⟩

/-! ## edits of a field -/

theorem editField_eq_ok {field : Rule.Field} {value : String}
    (h : f.editField index field value = .ok g) :
    ∃ i l r raw, index.toNat? = some i ∧ f.line? i = some l ∧ l.content = .rule r ∧
      withField l.raw field value = .ok raw ∧ f.replaceLine index raw = .ok g := by
  unfold editField at h
  split at h
  · cases h
  · next l hl =>
    obtain ⟨i, hi, hline⟩ := Option.bind_eq_some_iff.mp hl
    split at h
    · next r hr =>
      split at h
      · next raw hraw => exact ⟨i, l, r, raw, hi, hline, hr, hraw, h⟩
      · cases h
    · cases h

/-! ## what stays -/

def Plain (f : PolicyFile) : Prop := ∀ raw ∈ f.raws, '\n' ∉ raw.toList

theorem plain_ofText (name : String) (allowIncludes : Bool) (text : String) :
    (ofText name allowIncludes text).Plain := by
  intro raw hraw
  have hparts : ∃ parts : List (List Char), (∀ part ∈ parts, '\n' ∉ part) ∧
      (linesOf text.toList).1 = parts := by
    unfold linesOf
    split
    · exact ⟨[], fun part hpart => absurd hpart List.not_mem_nil, rfl⟩
    · split
      · exact ⟨_, fun part => Text.not_mem_of_mem_splitAt, rfl⟩
      · exact ⟨_, fun part => Text.not_mem_of_mem_splitAt, rfl⟩
  obtain ⟨parts, hplain, hlines⟩ := hparts
  obtain ⟨part, hpart, rfl⟩ := List.mem_map.mp hraw
  rw [String.toList_ofList]
  exact hplain part (hlines ▸ hpart)

/-- One file is the other with other lines. -/
structure Keeps (f g : PolicyFile) : Prop where
  name : g.name = f.name
  allowIncludes : g.allowIncludes = f.allowIncludes
  plain : f.Plain → g.Plain

theorem keeps_withText (f : PolicyFile) (text : String) : f.Keeps (f.withText text) :=
  ⟨rfl, rfl, fun _ => plain_ofText _ _ _⟩

theorem keeps_insertLine {raw : String} (h : f.insertLine index raw = .ok g) : f.Keeps g := by
  obtain ⟨i, -, -, hraw, rfl⟩ := insertLine_eq_ok_iff.mp h
  refine ⟨rfl, rfl, fun hf r hr => ?_⟩
  rcases List.eq_or_mem_of_mem_insertIdx hr with rfl | hr
  · exact hraw
  · exact hf r hr

theorem keeps_replaceLine {raw : String} (h : f.replaceLine index raw = .ok g) : f.Keeps g := by
  obtain ⟨i, -, -, hraw, rfl⟩ := replaceLine_eq_ok_iff.mp h
  refine ⟨rfl, rfl, fun hf r hr => ?_⟩
  rcases List.mem_or_eq_of_mem_set hr with hr | rfl
  · exact hf r hr
  · exact hraw

theorem keeps_deleteLine (h : f.deleteLine index = .ok g) : f.Keeps g := by
  obtain ⟨i, -, -, rfl⟩ := deleteLine_eq_ok_iff.mp h
  exact ⟨rfl, rfl, fun hf r hr => hf r (List.mem_of_mem_eraseIdx hr)⟩

theorem mem_of_mem_moveAt {raws : List String} {i j : Nat} {raw : String}
    (h : raw ∈ moveAt raws i j) : raw ∈ raws := by
  unfold moveAt at h
  split at h
  · next moved hmoved =>
    rcases List.eq_or_mem_of_mem_insertIdx h with rfl | h
    · exact List.mem_of_getElem? hmoved
    · exact List.mem_of_mem_eraseIdx h
  · exact h

theorem keeps_moveLine {target : Number} (h : f.moveLine index target = .ok g) : f.Keeps g := by
  obtain ⟨i, j, -, -, -, -, rfl⟩ := moveLine_eq_ok_iff.mp h
  exact ⟨rfl, rfl, fun hf r hr => hf r (mem_of_mem_moveAt hr)⟩

theorem keeps_editField {field : Rule.Field} {value : String}
    (h : f.editField index field value = .ok g) : f.Keeps g := by
  obtain ⟨_, _, _, raw, -, -, -, -, hreplace⟩ := editField_eq_ok h
  exact keeps_replaceLine hreplace

/-! ## edits one after another -/

/-- What can be done to a file: another text, or an edit by index. -/
inductive Edit where
  | setText (text : String)
  | insertLine (index : Number) (raw : String)
  | replaceLine (index : Number) (raw : String)
  | deleteLine (index : Number)
  | moveLine (source target : Number)
  deriving DecidableEq, Repr

def Edit.apply (f : PolicyFile) : Edit → Except Fault PolicyFile
  | .setText text => .ok (f.withText text)
  | .insertLine index raw => f.insertLine index raw
  | .replaceLine index raw => f.replaceLine index raw
  | .deleteLine index => f.deleteLine index
  | .moveLine source target => f.moveLine source target

def editOne (f : PolicyFile) (e : Edit) : PolicyFile := (e.apply f).toOption.getD f

def editAll (f : PolicyFile) (es : List Edit) : PolicyFile := es.foldl editOne f

theorem keeps_apply {e : Edit} (h : e.apply f = .ok g) : f.Keeps g := by
  cases e with
  | setText text =>
    cases h
    exact f.keeps_withText text
  | insertLine index raw => exact keeps_insertLine h
  | replaceLine index raw => exact keeps_replaceLine h
  | deleteLine index => exact keeps_deleteLine h
  | moveLine source target => exact keeps_moveLine h

theorem plain_editOne (h : f.Plain) (e : Edit) : (f.editOne e).Plain := by
  unfold editOne
  cases hg : e.apply f with
  | ok g => exact (keeps_apply hg).plain h
  | error fault => exact h

/-- **No edit puts a line feed into a line.** -/
theorem plain_editAll (h : f.Plain) (es : List Edit) : (f.editAll es).Plain := by
  induction es generalizing f with
  | nil => exact h
  | cons e es ih => exact ih (plain_editOne h e)

end QubePolicy.PolicyFile
