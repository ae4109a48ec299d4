import QubePolicy.CommandLine
import QubePolicy.Proofs.PolicyFile.Errors

/-!
# Checking files from the command line

A check fails just when one of its files may not be saved or cannot be read, and tells about every
file, whatever it finds in the others.

* `CommandLine.includesAllowed`, `CommandLine.files`   what the arguments of a check say;
* `CommandLine.report`               what is told about one file;
* `CommandLine.Passes`               a file can be read and may be saved;
* `CommandLine.validity_gates_agree`   saving, errors and the check agree on what is valid.
-/

namespace QubePolicy

def Disk.textAt (d : Disk) (file : String) : Except SystemFault String :=
  d.locate file >>= d.readText

namespace CommandLine

/-! ## arguments -/

def includesAllowed (arguments : List String) : Bool := !arguments.contains "--no-includes"

def files (arguments : List String) : List String := arguments.filter fun a => !isFlag a

/-- Without unknown flags, the arguments say whether includes are allowed and which files to
check, wherever the flag stands. -/
theorem checkArguments_eq_ok {arguments : List String}
    (hflags : ∀ a ∈ arguments, isFlag a = true → a = "--no-includes") :
    checkArguments arguments = .ok (includesAllowed arguments, files arguments) := by
  induction arguments with
  | nil => rfl
  | cons a rest ih =>
    have hrest := ih fun b hb => hflags b (List.mem_cons_of_mem a hb)
    rw [checkArguments, hrest]
    by_cases hflag : isFlag a = true
    · obtain rfl := hflags a List.mem_cons_self hflag
      simp [Except.map, includesAllowed, files, hflag]
    · have hne : a ≠ "--no-includes" := fun h => hflag (by rw [h]; decide +kernel)
      simp [Except.map, includesAllowed, files, hflag, hne, Ne.symm hne]

/-! ## one file -/

variable {d : Disk} {allowIncludes : Bool} {file : String}

/-- What is told about a file: its problems, or why it cannot be read. -/
def report (d : Disk) (allowIncludes : Bool) (file : String) : List Console.Entry :=
  match d.textAt file with
  | .ok text => Console.diagnostics file (PolicyFile.ofText file allowIncludes text).diagnostics
  | .error e => [Console.error s!"Cannot read {file}: {e.message}"]

/-- The file can be read, and could be saved as it is. -/
def Passes (d : Disk) (allowIncludes : Bool) (file : String) : Prop :=
  ∃ text, d.textAt file = .ok text ∧ (PolicyFile.ofText file allowIncludes text).canSave = true

theorem not_passes_iff : ¬ Passes d allowIncludes file ↔ (∃ e, d.textAt file = .error e) ∨
    ∃ text, d.textAt file = .ok text ∧
      (PolicyFile.ofText file allowIncludes text).canSave = false := by
  unfold Passes
  cases d.textAt file <;> simp

theorem checkFile_fst : (checkFile d allowIncludes file).1 = report d allowIncludes file := by
  unfold checkFile report Disk.textAt
  cases d.locate file >>= d.readText <;> rfl

theorem checkFile_snd_iff :
    (checkFile d allowIncludes file).2 = true ↔ Passes d allowIncludes file := by
  unfold checkFile Passes Disk.textAt
  cases d.locate file >>= d.readText with
  | error e => simp
  | ok text => simp [PolicyFile.any_isError_diagnostics]

/-! ## the check -/

theorem run_check (home : String) (env : Environment) (arguments : List String) (h : Host) :
    run home env ("check" :: arguments) h = check arguments h := rfl

/-- The check of some files fails when one of them does not pass, and tells about each. -/
theorem check_eq {arguments : List String} (hfiles : files arguments ≠ [])
    (hflags : ∀ a ∈ arguments, isFlag a = true → a = "--no-includes") (h : Host) :
    check arguments h =
      (if (files arguments).all fun file =>
          (checkFile h.disk (includesAllowed arguments) file).2 then 0 else 1,
        h.print ((files arguments).flatMap (report h.disk (includesAllowed arguments)))) := by
  rw [check, checkArguments_eq_ok hflags]
  cases hnames : files arguments with
  | nil => exact absurd hnames hfiles
  | cons file rest =>
    have hreport : report h.disk (includesAllowed arguments) =
        fun file => (checkFile h.disk (includesAllowed arguments) file).1 :=
      funext fun file => checkFile_fst.symm
    simp only [hreport, List.all_map, List.flatMap_map, Function.comp_def]

/-- **What counts as valid is one thing for saving, for the errors of a file and for the check.**
A file may be saved just when it has no errors; its lines with errors are the malformed ones,
everything else told is that a rule is redundant, and all is told in the order of the lines. So a
check of some files fails just when one of them cannot be read or may not be saved, and it tells
about each of them. -/
theorem validity_gates_agree :
    (∀ f : PolicyFile,
      (f.canSave = true ↔ f.errors = []) ∧
      (∀ n : Int, (∃ d ∈ f.diagnostics, d.isError = true ∧ d.line = n) ↔
        ∃ l ∈ f.lines, l.content.isMalformed = true ∧ (l.number : Int) = n) ∧
      (∀ d ∈ f.diagnostics, d.severity = .warning → d.kind = .redundantRule ∧
        ∃ l ∈ f.lines, (∃ r, l.content = .rule r) ∧ d.line = l.number) ∧
      f.diagnostics.Pairwise fun d e => d.line ≤ e.line) ∧
    ∀ (home : String) (env : Environment) (arguments : List String) (h : Host) (code : Nat)
      (after : Host), files arguments ≠ [] →
      (∀ a ∈ arguments, isFlag a = true → a = "--no-includes") →
      run home env ("check" :: arguments) h = (code, after) →
      (code = 1 ↔ ∃ file ∈ files arguments, (∃ e, h.disk.textAt file = .error e) ∨
        ∃ text, h.disk.textAt file = .ok text ∧
          (PolicyFile.ofText file (includesAllowed arguments) text).canSave = false) ∧
      (code = 0 ↔ ∀ file ∈ files arguments, Passes h.disk (includesAllowed arguments) file) ∧
      after = h.print ((files arguments).flatMap (report h.disk (includesAllowed arguments))) := by
  refine ⟨fun f => ⟨PolicyFile.errors_eq_nil_iff.symm, fun n => PolicyFile.exists_error_on_iff,
    fun d hd hwarning => PolicyFile.redundant_of_warning hd ?_, f.pairwise_line_diagnostics⟩, ?_⟩
  · rw [Diagnostic.isError, hwarning]
    rfl
  · intro home env arguments h code after hfiles hflags hrun
    rw [run_check, check_eq hfiles hflags] at hrun
    have hall : ((files arguments).all fun file =>
          (checkFile h.disk (includesAllowed arguments) file).2) = true ↔
        ∀ file ∈ files arguments, Passes h.disk (includesAllowed arguments) file := by
      simp only [List.all_eq_true, checkFile_snd_iff]
    obtain ⟨rfl, rfl⟩ := Prod.mk.inj hrun
    by_cases hpass : ∀ file ∈ files arguments, Passes h.disk (includesAllowed arguments) file
    · rw [if_pos (hall.mpr hpass)]
      refine ⟨⟨fun hone => absurd hone Nat.zero_ne_one, ?_⟩, ⟨fun _ => hpass, fun _ => rfl⟩, rfl⟩
      rintro ⟨file, hfile, hfault⟩
      exact absurd (hpass file hfile) (not_passes_iff.mpr hfault)
    · rw [if_neg (mt hall.mp hpass)]
      obtain ⟨file, hfile, hfault⟩ : ∃ file ∈ files arguments,
          ¬ Passes h.disk (includesAllowed arguments) file := by simpa using hpass
      exact ⟨⟨fun _ => ⟨file, hfile, not_passes_iff.mp hfault⟩, fun _ => rfl⟩,
        ⟨fun hzero => absurd hzero Nat.one_ne_zero, fun hall => absurd hall hpass⟩, rfl⟩

/-! ## a check of three files -/

def threeNames : List String := ["gone", "bad", "--no-includes", "good"]

def twoStored : Host :=
  ⟨⟨.directory [("bad", .file (Text.Utf8.encode "!include common\n")),
    ("good", .file (Text.Utf8.encode "# none\n"))]⟩, ⟨0⟩, []⟩

theorem check_threeNames : files threeNames = ["gone", "bad", "good"] ∧
    (∀ a ∈ threeNames, isFlag a = true → a = "--no-includes") ∧
    (run "/root" [] ("check" :: threeNames) twoStored).1 = 1 ∧
    Console.out "good: OK" ∈ (run "/root" [] ("check" :: threeNames) twoStored).2.console := by
  have hfiles : files threeNames = ["gone", "bad", "good"] := by decide +kernel
  have hflags : ∀ a ∈ threeNames, isFlag a = true → a = "--no-includes" := by decide +kernel
  obtain ⟨hone, -, hafter⟩ := validity_gates_agree.2 "/root" [] threeNames twoStored
    (run "/root" [] ("check" :: threeNames) twoStored).1
    (run "/root" [] ("check" :: threeNames) twoStored).2
    (by rw [hfiles]; exact List.cons_ne_nil _ _) hflags rfl
  refine ⟨hfiles, hflags, hone.mpr ⟨"bad", by simp [hfiles], .inr ⟨"!include common\n", ?_, ?_⟩⟩, ?_⟩
  · rfl
  · decide +kernel
  · rw [hafter, Host.console_print, hfiles]
    refine List.mem_append_right _ (List.mem_flatMap.mpr ⟨"good", by simp, ?_⟩)
    decide +kernel

end CommandLine

end QubePolicy
