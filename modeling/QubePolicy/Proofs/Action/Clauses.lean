import QubePolicy.Action.Reader
import QubePolicy.Proofs.Diagnostic.Checked
import QubePolicy.Proofs.Specifier.Spelling

/-!
# Clauses and their assignments

Behind an action word each token is an assignment `KEY=VALUE`, for the target or for a parameter.

* `Parameter.HasKey`      the key of an assignment: not empty, and up to the first `=`;
* `Clause.assignment`     the assignment a clause is written as;
* `Clause.WellFormed`     a clause that can be written;
* `readClauses_eq_valid_iff`   reading gives the clauses whose assignments are read, each key once.
-/

namespace QubePolicy

open Token (NoSeparator)

/-! ## assignments -/

/-- A key ends at the first `=`. -/
structure Parameter.HasKey (p : Parameter) : Prop where
  ne_empty : p.key ≠ ""
  noEquals : '=' ∉ p.key.toList

theorem Grant.targetKey_free (mode : Grant) :
    mode.targetKey ≠ "" ∧ '=' ∉ mode.targetKey.toList ∧ NoSeparator mode.targetKey := by
  cases mode with
  | allow => decide
  | ask => decide

theorem Parameter.hasKey_targetKey (mode : Grant) (value : String) :
    (Parameter.mk mode.targetKey value).HasKey :=
  ⟨mode.targetKey_free.1, mode.targetKey_free.2.1⟩

theorem Grant.targetKey_ne_other (mode : Grant) : mode.targetKey ≠ mode.other.targetKey := by
  cases mode with
  | allow => decide
  | ask => decide

theorem Token.assignment?_eq_some_iff {t : Token} {key value : String} :
    t.assignment? = some (key, value) ↔
      (Parameter.mk key value).HasKey ∧ t.value = (Parameter.mk key value).render := by
  have hparts := List.takeWhile_append_dropWhile (p := (· != '=')) (l := t.value.toList)
  constructor
  · intro h
    unfold assignment? at h
    split at h
    · next c cs d ds hkey hvalue =>
      cases h
      have hd : d = '=' := by
        have := List.head?_dropWhile_not (· != '=') t.value.toList
        rw [hvalue] at this
        simpa using this
      refine ⟨⟨by simp [String.ofList_eq_empty_iff], ?_⟩, ?_⟩
      · rw [String.toList_ofList, ← hkey]
        intro hmem
        simpa using List.mem_takeWhile_imp hmem
      · rw [hkey, hvalue, hd] at hparts
        rw [← String.toList_inj, ← hparts]
        simp [Parameter.render]
    · cases h
  · rintro ⟨⟨hne, hfree⟩, hvalue⟩
    have hfree' : ∀ c ∈ key.toList, (c != '=') = true := by
      intro c hc
      simpa using fun h : c = '=' => hfree (h ▸ hc)
    have htext : t.value.toList = key.toList ++ '=' :: value.toList := by
      rw [hvalue]
      simp [Parameter.render]
    obtain ⟨c, cs, hkey⟩ := List.exists_cons_of_ne_nil
      fun h : key.toList = [] => hne (String.toList_eq_nil_iff.mp h)
    have htake : t.value.toList.takeWhile (· != '=') = c :: cs := by
      rw [htext, List.takeWhile_append_of_pos hfree', hkey]
      simp
    have hdrop : t.value.toList.dropWhile (· != '=') = '=' :: value.toList := by
      rw [htext, List.dropWhile_append_of_pos hfree']
      simp
    rw [assignment?, htake, hdrop]
    simp only [← hkey, String.ofList_toList]

/-! ## clauses -/

namespace Action.Clause

def assignment (mode : Grant) : Clause → Parameter
  | .target q => ⟨mode.targetKey, q.render⟩
  | .parameter p => p

def WellFormed (mode : Grant) : Clause → Prop
  | .target q => q.WellFormed ∧ q.legalIn .parameter = true
  | .parameter p => p.HasKey ∧ p.key ≠ mode.targetKey ∧ p.key ≠ mode.other.targetKey

theorem WellFormed.hasKey {mode : Grant} {c : Clause} (h : c.WellFormed mode) :
    (c.assignment mode).HasKey := by
  cases c with
  | target q => exact Parameter.hasKey_targetKey mode q.render
  | parameter p => exact h.1

theorem eq_target {mode : Grant} {c : Clause} (h : c.WellFormed mode)
    (hkey : (c.assignment mode).key = mode.targetKey) : ∃ q, c = .target q := by
  cases c with
  | target q => exact ⟨q, rfl⟩
  | parameter p => exact absurd hkey h.2.1

theorem WellFormed.key_ne_other {mode : Grant} {c : Clause} (h : c.WellFormed mode) :
    (c.assignment mode).key ≠ mode.other.targetKey := by
  cases c with
  | target q => exact mode.targetKey_ne_other
  | parameter p => exact h.2.2

end Action.Clause

namespace Action

variable {mode : Grant} {seen : List String}

theorem readClause_eq_valid_iff {t : Token} {c : Clause} :
    readClause mode seen t = .valid c ↔
      c.WellFormed mode ∧ t.value = (c.assignment mode).render ∧
        (c.assignment mode).key ∉ seen := by
  constructor
  · intro h
    unfold readClause at h
    split at h
    · cases h
    · next key value hassign =>
      obtain ⟨hkey, hvalue⟩ := Token.assignment?_eq_some_iff.mp hassign
      split at h
      · cases h
      · next hseen =>
        have hseen' : key ∉ seen := by simpa using hseen
        split at h
        · cases h
        · next hother =>
          split at h
          · next htarget =>
            obtain ⟨q, hq, rfl⟩ := Checked.map_eq_valid_iff.mp h
            obtain ⟨hwell, rfl⟩ :=
              QubeSpecifier.readAt_eq_ok_iff.mp (Checked.ofExcept_eq_valid_iff.mp hq)
            rw [htarget] at hvalue hseen'
            exact ⟨hwell, hvalue, hseen'⟩
          · next htarget =>
            cases Checked.pure_eq_valid_iff.mp h
            exact ⟨⟨hkey, htarget, hother⟩, hvalue, hseen'⟩
  · rintro ⟨hwell, hvalue, hseen⟩
    have hassign : t.assignment? = some ((c.assignment mode).key, (c.assignment mode).value) :=
      Token.assignment?_eq_some_iff.mpr ⟨hwell.hasKey, hvalue⟩
    rw [readClause, hassign]
    simp only [List.contains_iff_mem, if_neg hseen, if_neg hwell.key_ne_other]
    cases c with
    | target q =>
      have hq : QubeSpecifier.readAt .parameter q.render = .ok q :=
        QubeSpecifier.readAt_eq_ok_iff.mpr ⟨hwell, rfl⟩
      simp only [Clause.assignment, if_true, hq]
      rfl
    | parameter p =>
      obtain ⟨-, htarget, -⟩ := hwell
      exact if_neg htarget

theorem readClauses_eq_valid_iff {ts : List Token} {cs : List Clause} :
    readClauses mode seen ts = .valid cs ↔
      (∀ c ∈ cs, c.WellFormed mode ∧ (c.assignment mode).key ∉ seen) ∧
      (cs.map fun c => (c.assignment mode).key).Nodup ∧
      ts.map Token.value = cs.map fun c => (c.assignment mode).render := by
  induction ts generalizing seen cs with
  | nil =>
    rw [readClauses, Checked.pure_eq_valid_iff]
    constructor
    · rintro rfl
      simp
    · rintro ⟨-, -, h⟩
      exact (List.map_eq_nil_iff.mp h.symm).symm
  | cons t ts ih =>
    rw [readClauses, Checked.apply_eq_valid_iff]
    constructor
    · rintro ⟨_, rest, hfirst, hrest, rfl⟩
      obtain ⟨c, hc, rfl⟩ := Checked.map_eq_valid_iff.mp hfirst
      obtain ⟨hwell, hvalue, hseen⟩ := readClause_eq_valid_iff.mp hc
      have hassign : t.assignment? = some ((c.assignment mode).key, (c.assignment mode).value) :=
        Token.assignment?_eq_some_iff.mpr ⟨hwell.hasKey, hvalue⟩
      rw [hassign] at hrest
      obtain ⟨hall, hnodup, hvalues⟩ := ih.mp hrest
      refine ⟨?_, ?_, by rw [List.map_cons, List.map_cons, hvalue, hvalues]⟩
      · intro d hd
        rcases List.mem_cons.mp hd with rfl | hd
        · exact ⟨hwell, hseen⟩
        · exact ⟨(hall d hd).1, fun hmem => (hall d hd).2 (List.mem_cons_of_mem _ hmem)⟩
      · refine List.nodup_cons.mpr ⟨fun hmem => ?_, hnodup⟩
        obtain ⟨d, hd, hkey⟩ := List.mem_map.mp hmem
        exact (hall d hd).2 (hkey ▸ List.mem_cons_self)
    · rintro ⟨hall, hnodup, hvalues⟩
      cases cs with
      | nil => cases hvalues
      | cons c cs =>
        obtain ⟨hvalue, hvalues⟩ := List.cons.inj hvalues
        obtain ⟨hwell, hseen⟩ := hall c List.mem_cons_self
        have hassign : t.assignment? =
            some ((c.assignment mode).key, (c.assignment mode).value) :=
          Token.assignment?_eq_some_iff.mpr ⟨hwell.hasKey, hvalue⟩
        have hnodup' := List.nodup_cons.mp hnodup
        refine ⟨List.cons c, cs, Checked.map_eq_valid_iff.mpr
          ⟨c, readClause_eq_valid_iff.mpr ⟨hwell, hvalue, hseen⟩, rfl⟩, ?_, rfl⟩
        rw [hassign]
        refine ih.mpr ⟨fun d hd => ?_, hnodup'.2, hvalues⟩
        obtain ⟨hdwell, hdseen⟩ := hall d (List.mem_cons_of_mem c hd)
        refine ⟨hdwell, fun hmem => ?_⟩
        rcases List.mem_cons.mp hmem with hkey | hmem
        · exact hnodup'.1 (List.mem_map.mpr ⟨d, hd, hkey⟩)
        · exact hdseen hmem

end Action

end QubePolicy
