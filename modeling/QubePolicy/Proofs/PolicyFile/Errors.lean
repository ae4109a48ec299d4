import QubePolicy.Proofs.PolicyFile.Redundancy

/-!
# The errors of a file

* `PolicyFile.mem_errors_iff`        the errors of a file are what is wrong with its lines, each by
                                     itself;
* `PolicyFile.errors_eq_nil_iff`     a file without errors may be saved, and no other one;
* `PolicyFile.exists_error_on_iff`   the lines with an error are the malformed ones;
* `PolicyFile.redundant_of_warning`   what is not an error is that a rule is redundant;
* `PolicyFile.pairwise_line_diagnostics`   the diagnostics are told in the order of the lines.
-/

namespace QubePolicy

theorem Line.reports_of_key?_eq_none {l : Line} (hkey : l.key? = none) (before : List Line) :
    l.reports before = l.diagnostics := by
  rw [reports, hkey]

theorem Line.diagnostics_eq_nil_of_key {l : Line} {key : String} (hkey : l.key? = some key) :
    l.diagnostics = [] := by
  obtain ⟨r, hr, -⟩ := key?_eq_some_iff.mp hkey
  rw [diagnostics, hr]

namespace PolicyFile

variable {f : PolicyFile}

theorem isError_redundancy (l : Line) (earlier : Nat) : (redundancy l earlier).isError = false := rfl

theorem mem_errors_iff {d : Diagnostic} : d ∈ f.errors ↔ ∃ l ∈ f.lines, d ∈ l.diagnostics := by
  rw [errors, List.mem_filter, mem_diagnostics_iff]
  constructor
  · rintro ⟨⟨front, l, back, hlines, hd⟩, herror⟩
    refine ⟨l, by simp [hlines], ?_⟩
    cases hkey : l.key? with
    | none => rwa [Line.reports_of_key?_eq_none hkey] at hd
    | some key =>
      obtain ⟨k, -, rfl⟩ := (Line.mem_reports_of_key hkey).mp hd
      rw [isError_redundancy] at herror
      cases herror
  · rintro ⟨l, hl, hd⟩
    obtain ⟨front, back, hlines⟩ := List.append_of_mem hl
    have hkey : l.key? = none := by
      cases hkey : l.key? with
      | none => rfl
      | some key =>
        rw [Line.diagnostics_eq_nil_of_key hkey] at hd
        cases hd
    refine ⟨⟨front, l, back, hlines, by rwa [Line.reports_of_key?_eq_none hkey]⟩, ?_⟩
    rw [read_of_mem_lines hl] at hd
    obtain ⟨finding, hlocated, rfl⟩ := Line.exists_of_mem_diagnostics hd
    exact Diagnostic.isError_onLine_iff.mpr hlocated.isError

theorem canSave_iff : f.canSave = true ↔ ∀ l ∈ f.lines, l.content.isMalformed = false := by
  simp [canSave]

theorem diagnostics_eq_nil_iff {l : Line} (hl : l ∈ f.lines) :
    l.diagnostics = [] ↔ l.content.isMalformed = false := by
  rw [read_of_mem_lines hl]
  exact Line.diagnostics_eq_nil_iff _ _ _

/-- **A file may be saved when it is without errors**, and only then. -/
theorem errors_eq_nil_iff : f.errors = [] ↔ f.canSave = true := by
  rw [canSave_iff, List.eq_nil_iff_forall_not_mem]
  constructor
  · intro hnone l hl
    rw [← diagnostics_eq_nil_iff hl, List.eq_nil_iff_forall_not_mem]
    exact fun d hd => hnone d (mem_errors_iff.mpr ⟨l, hl, hd⟩)
  · intro hall d hd
    obtain ⟨l, hl, hd⟩ := mem_errors_iff.mp hd
    rw [(diagnostics_eq_nil_iff hl).mpr (hall l hl)] at hd
    cases hd

/-- The diagnostics have an error just when the file may not be saved. -/
theorem any_isError_diagnostics (f : PolicyFile) :
    f.diagnostics.any Diagnostic.isError = !f.canSave := by
  have hgate : f.errors = [] ↔ f.canSave = true := errors_eq_nil_iff
  rw [errors, List.filter_eq_nil_iff, ← List.any_eq_false] at hgate
  cases hany : f.diagnostics.any Diagnostic.isError with
  | false => rw [hgate.mp hany, Bool.not_true]
  | true =>
    rw [hany] at hgate
    simpa using hgate

/-- **The lines with an error are the malformed ones.** -/
theorem exists_error_on_iff {n : Int} :
    (∃ d ∈ f.diagnostics, d.isError = true ∧ d.line = n) ↔
      ∃ l ∈ f.lines, l.content.isMalformed = true ∧ (l.number : Int) = n := by
  constructor
  · rintro ⟨d, hd, herror, rfl⟩
    obtain ⟨l, hl, hd⟩ := mem_errors_iff.mp (List.mem_filter.mpr ⟨hd, herror⟩)
    refine ⟨l, hl, ?_, (Line.line_of_mem_diagnostics hd).symm⟩
    rw [← Bool.not_eq_false, ← diagnostics_eq_nil_iff hl]
    exact List.ne_nil_of_mem hd
  · rintro ⟨l, hl, hmalformed, rfl⟩
    have hne : l.diagnostics ≠ [] := by
      rw [Ne, diagnostics_eq_nil_iff hl, hmalformed]
      exact Bool.noConfusion
    obtain ⟨d, hd⟩ := List.exists_mem_of_ne_nil l.diagnostics hne
    obtain ⟨hmem, herror⟩ := List.mem_filter.mp (mem_errors_iff.mpr ⟨l, hl, hd⟩)
    exact ⟨d, hmem, herror, Line.line_of_mem_diagnostics hd⟩

theorem redundant_of_warning {d : Diagnostic} (hd : d ∈ f.diagnostics)
    (hwarning : d.isError = false) : d.kind = .redundantRule ∧
      ∃ l ∈ f.lines, (∃ r, l.content = .rule r) ∧ d.line = l.number := by
  obtain ⟨front, l, back, hlines, hreport⟩ := mem_diagnostics_iff.mp hd
  have hl : l ∈ f.lines := by simp [hlines]
  cases hkey : l.key? with
  | none =>
    rw [Line.reports_of_key?_eq_none hkey] at hreport
    have herror : d ∈ f.errors := mem_errors_iff.mpr ⟨l, hl, hreport⟩
    rw [errors, List.mem_filter, hwarning] at herror
    cases herror.2
  | some key =>
    obtain ⟨k, -, rfl⟩ := (Line.mem_reports_of_key hkey).mp hreport
    obtain ⟨r, hr, -⟩ := Line.key?_eq_some_iff.mp hkey
    exact ⟨rfl, l, hl, ⟨r, hr⟩, rfl⟩

theorem pairwise_line_diagnostics (f : PolicyFile) :
    f.diagnostics.Pairwise fun d e => d.line ≤ e.line := by
  rw [diagnostics_eq]
  refine pairwise_reportsFrom (fun d e => Int.le_of_lt) f.pairwise_number_lines fun l _ before => ?_
  exact List.pairwise_of_forall_mem_list fun d hd e he =>
    Int.le_of_eq ((Line.line_of_mem_reports hd).trans (Line.line_of_mem_reports he).symm)

theorem exists_error_of_not_canSave (h : f.canSave = false) :
    ∃ d ∈ f.diagnostics, d.isError = true := by
  have hne : f.errors ≠ [] := by
    rw [Ne, errors_eq_nil_iff, h]
    exact Bool.false_ne_true
  obtain ⟨d, hd⟩ := List.exists_mem_of_ne_nil f.errors hne
  obtain ⟨hmem, herror⟩ := List.mem_filter.mp hd
  exact ⟨d, hmem, herror⟩

end PolicyFile

end QubePolicy
