import QubePolicy.Proofs.Outcome
import QubePolicy.Store

/-!
# Reading and replacing stored files

* `Store.textOf?`        the text that is stored under a name;
* `Store.get_eq_ok_iff`  getting a file gives its text and the version of that text;
* `Version.Fits`         what is at a place is as it is expected to be;
* `Store.check_eq_ok_iff`, `replace_eq_ok`   a file is replaced only if it is as expected;
* `Store.replace_eq_error`   if it is not replaced, it is not as expected or cannot be written;
* `Store.ne_invalid_of_replace`   the store looks at no diagnostics.
-/

namespace QubePolicy

/-- What is at a place is as expected: nothing, anything, or a text of the version. -/
def Version.Fits (d : Disk) (p : Path) : Version → Prop
  | .new => d.exists? p = false
  | .any => True
  | .content digest => ∃ text, d.readText p = .ok text ∧ Version.ofText text = .content digest

namespace Store

variable {s : Store} {d : Disk} {name : String}

def textOf? (s : Store) (d : Disk) (name : String) : Option String :=
  match s.path name with
  | .ok p => (d.readText p).toOption
  | .error _ => none

theorem textOf?_eq_some_iff {text : String} :
    s.textOf? d name = some text ↔ ∃ p, s.path name = .ok p ∧ d.readText p = .ok text := by
  unfold textOf?
  cases s.path name with
  | error e => simp
  | ok p =>
    cases h : d.readText p with
    | error e => simp [h, Except.toOption]
    | ok t => simp [h, Except.toOption]

theorem exists?_eq_ok_iff {there : Bool} :
    s.exists? d name = .ok there ↔ ∃ p, s.path name = .ok p ∧ d.exists? p = there :=
  Except.map_eq_ok_iff

theorem exists_of_readText {p : Path} {text : String} (h : d.readText p = .ok text) :
    d.exists? p = true := by
  obtain ⟨bytes, hread, -⟩ := Except.map_eq_ok_iff.mp h
  obtain ⟨tree, hfind, -⟩ := Except.bind_eq_ok_iff.mp hread
  rw [Disk.exists?, hfind]
  rfl

/-! ## reading -/

theorem get_eq_ok_iff {text : String} {v : Version} :
    s.get d name = .ok (text, v) ↔ s.textOf? d name = some text ∧ v = .ofText text := by
  simp only [get, Except.bind_eq_ok_iff, textOf?_eq_some_iff]
  constructor
  · rintro ⟨p, hp, h⟩
    split at h
    · next t ht =>
      cases h
      exact ⟨⟨p, hp, ht⟩, rfl⟩
    · cases h
    · cases h
  · rintro ⟨⟨p, hp, ht⟩, rfl⟩
    exact ⟨p, hp, by rw [ht]⟩

/-! ## writing -/

theorem check_eq_ok_iff {expected : Version} {u : Unit} :
    s.check d name expected = .ok u ↔ ∃ p, s.path name = .ok p ∧ expected.Fits d p := by
  simp only [check, Except.bind_eq_ok_iff, exists?_eq_ok_iff]
  constructor
  · rintro ⟨there, ⟨p, hp, hthere⟩, h⟩
    refine ⟨p, hp, ?_⟩
    cases expected with
    | any => trivial
    | new =>
      cases there with
      | true => cases h
      | false => exact hthere
    | content digest =>
      cases there with
      | false => cases h
      | true =>
        obtain ⟨⟨text, v⟩, hget, h⟩ := Except.bind_eq_ok_iff.mp h
        obtain ⟨htext, rfl⟩ := get_eq_ok_iff.mp hget
        obtain ⟨q, hq, htext⟩ := textOf?_eq_some_iff.mp htext
        obtain rfl : p = q := Except.ok.inj (hp.symm.trans hq)
        by_cases hv : Version.ofText text = .content digest
        · exact ⟨text, htext, hv⟩
        · rw [if_neg hv] at h
          cases h
  · rintro ⟨p, hp, hfits⟩
    refine ⟨_, ⟨p, hp, rfl⟩, ?_⟩
    cases expected with
    | any => rfl
    | new =>
      rw [show d.exists? p = false from hfits]
      rfl
    | content digest =>
      obtain ⟨text, htext, hv⟩ := hfits
      have hget : s.get d name = .ok (text, .ofText text) :=
        get_eq_ok_iff.mpr ⟨textOf?_eq_some_iff.mpr ⟨p, hp, htext⟩, rfl⟩
      rw [exists_of_readText htext, hget]
      exact if_pos hv

theorem replace_eq_ok {text : String} {expected v : Version} {written : Disk}
    (h : s.replace d name text expected = (.ok v, written)) :
    ∃ p, s.path name = .ok p ∧ expected.Fits d p ∧ v = .ofText text ∧
      writeAt d p (Text.Utf8.encode text) = (.ok (), written) := by
  unfold replace at h
  split at h
  · cases h
  · cases h
  · next p hcheck hp =>
    obtain ⟨q, hq, hfits⟩ := check_eq_ok_iff.mp hcheck
    obtain rfl : p = q := Except.ok.inj (hp.symm.trans hq)
    split at h
    · next w hw =>
      cases h
      exact ⟨p, hp, hfits, rfl, hw⟩
    · cases h

/-- A file that is not replaced is not as expected, or it cannot be written. -/
theorem replace_eq_error {text : String} {expected : Version} {e : Fault} {left : Disk}
    (h : s.replace d name text expected = (.error e, left)) :
    (s.check d name expected = .error e ∧ left = d) ∨
      ∃ p cause, s.path name = .ok p ∧ e = .storage name (.unwritable cause) ∧
        writeAt d p (Text.Utf8.encode text) = (.error cause, left) := by
  unfold replace at h
  split at h
  · next hcheck =>
    cases h
    exact .inl ⟨hcheck, rfl⟩
  · next hpath hchecked =>
    cases hcheck : s.check d name expected with
    | error f => exact absurd hcheck (hchecked f)
    | ok u =>
      obtain ⟨p, hp, -⟩ := check_eq_ok_iff.mp hcheck
      rw [hpath] at hp
      cases hp
  · next p hcheck hp =>
    split at h
    · cases h
    · next cause w hw =>
      cases h
      exact .inr ⟨p, cause, hp, rfl, hw⟩

theorem ne_invalid_of_path {e : Fault} (h : s.path name = .error e) (file : String)
    (diagnostics : List Diagnostic) : e ≠ .invalid file diagnostics := by
  unfold path at h
  split at h <;> cases h
  exact Fault.noConfusion

theorem ne_invalid_of_get {e : Fault} (h : s.get d name = .error e) (file : String)
    (diagnostics : List Diagnostic) : e ≠ .invalid file diagnostics := by
  rcases Except.bind_eq_error_iff.mp h with hpath | ⟨p, -, hread⟩
  · exact ne_invalid_of_path hpath file diagnostics
  · split at hread <;> cases hread <;> exact Fault.noConfusion

theorem ne_invalid_of_check {expected : Version} {e : Fault} (h : s.check d name expected = .error e)
    (file : String) (diagnostics : List Diagnostic) : e ≠ .invalid file diagnostics := by
  rcases Except.bind_eq_error_iff.mp h with hthere | ⟨there, -, h⟩
  · cases hpath : s.path name with
    | error f =>
      rw [exists?, hpath] at hthere
      cases hthere
      exact ne_invalid_of_path hpath file diagnostics
    | ok p =>
      rw [exists?, hpath] at hthere
      cases hthere
  · cases expected with
    | any => cases h
    | new =>
      cases there <;> cases h
      exact Fault.noConfusion
    | content digest =>
      cases there with
      | false =>
        cases h
        exact Fault.noConfusion
      | true =>
        rcases Except.bind_eq_error_iff.mp h with hget | ⟨⟨text, v⟩, -, h⟩
        · exact ne_invalid_of_get hget file diagnostics
        · split at h <;> cases h
          exact Fault.noConfusion

/-- **A file is never refused by the store for its diagnostics.** -/
theorem ne_invalid_of_replace {text : String} {expected : Version} {e : Fault} {left : Disk}
    (h : s.replace d name text expected = (.error e, left)) (file : String)
    (diagnostics : List Diagnostic) : e ≠ .invalid file diagnostics := by
  rcases replace_eq_error h with ⟨hcheck, -⟩ | ⟨p, cause, -, rfl, -⟩
  · exact ne_invalid_of_check hcheck file diagnostics
  · exact Fault.noConfusion

end Store

end QubePolicy
