import QubePolicy.Proofs.Evaluation.Nesting
import QubePolicy.Proofs.Store.Listing

/-!
# Include lines that lead nowhere

An include line that leads to no policy file stands for no rules, and evaluation goes on with the
next line.  One kind of place is different: a directory that is named like a policy file counts as
being there, and cannot be read.

* `Store.Answers`             what an include line stands for, by what is at the end of its path;
* `Store.answers_resolve`     include lines are answered so;
* `Store.Unresolved`          an include line that leads to no file, nor to such a directory;
* `Evaluation.Finishes.exists_unresolved`   a scan that fails has met an include line that does;
* `Store.unresolved_lines_are_passed`   include lines without a file do no harm, directories apart;
* `Store.directory_stops_evaluation`    a directory does.
-/

namespace QubePolicy

/-! ## scans that fail -/

namespace Evaluation

variable {ε : Type} {resolve : Directive → String → Except ε (List PolicyFile)} {request : Request}
  {chain : List String} {task : Task} {depth : Nat} {e : ε}

/-- **A scan that fails has met an include line that cannot be answered.** -/
theorem Finishes.exists_unresolved (h : Finishes resolve request chain task (.error e) depth) :
    ∃ directive path, resolve directive path = .error e := by
  generalize hfound : (Except.error e : Except ε (Option Match)) = found at h
  induction h with
  | noLines | noFiles | rule => cases hfound
  | unresolved hcontent herror =>
    cases hfound
    exact ⟨_, _, herror⟩
  | inert _ _ _ ih => exact ih hfound
  | included _ _ _ _ ih => exact ih hfound
  | includedNone _ _ _ _ _ ih => exact ih hfound
  | passedOver _ _ ih => exact ih hfound
  | entered _ _ _ ih => exact ih hfound
  | enteredNone _ _ _ _ ih => exact ih hfound

end Evaluation

/-! ## what is at the end of a path -/

namespace Store

variable {s : Store} {d : Disk} {opened : List PolicyFile} {allowIncludes : Bool}
  {directive : Directive} {path name : String}

/-- What an include line stands for, by what is at the end of its path. -/
inductive Answers (s : Store) (d : Disk) (opened : List PolicyFile) (allowIncludes : Bool) :
    Directive → String → Except Fault (List PolicyFile) → Prop
  | astray {path : String} : (∀ name, ¬s.Placed name (s.directory.resolve path)) →
      Answers s d opened allowIncludes .file path (.ok [])
  | opened {path name : String} {f : PolicyFile} : s.Placed name (s.directory.resolve path) →
      opened.find? (·.name == name) = some f → Answers s d opened allowIncludes .file path (.ok [f])
  | stored {path name : String} {bytes : List UInt8} : s.Placed name (s.directory.resolve path) →
      opened.find? (·.name == name) = none → d.bytes? (s.directory.resolve path) = some bytes →
      Answers s d opened allowIncludes .file path
        (.ok [.ofText name allowIncludes (Text.Utf8.decode bytes)])
  /-- there is nothing, or the way is blocked by a file -/
  | missing {path name : String} : s.Placed name (s.directory.resolve path) →
      opened.find? (·.name == name) = none → d.look (s.directory.resolve path) = none →
      Answers s d opened allowIncludes .file path (.ok [])
  | directory {path name : String} : s.Placed name (s.directory.resolve path) →
      opened.find? (·.name == name) = none → d.look (s.directory.resolve path) = some none →
      Answers s d opened allowIncludes .file path
        (.error (.storage name (.unreadable .isDirectory)))
  /-- another directory than the include directory, or none at all -/
  | elsewhere {path : String} : s.directory.resolve path ≠ s.includeDirectory →
      Answers s d opened allowIncludes .directory path (.ok [])
  | listed {path : String} {files : List String} {fs : List PolicyFile} :
      s.directory.resolve path = s.includeDirectory →
      d.listing s.includeDirectory = some files → fs.map PolicyFile.name = includeNames files →
      (∀ f ∈ fs, s.IsCurrent d opened allowIncludes f) →
      Answers s d opened allowIncludes .directory path (.ok fs)

theorem load_of_path {p : Path} (hfind : opened.find? (·.name == name) = none)
    (hp : s.path name = .ok p) : s.load d opened allowIncludes name =
      match d.look p with
      | none => .ok none
      | some none => .error (.storage name (.unreadable .isDirectory))
      | some (some bytes) =>
        .ok (some (.ofText name allowIncludes (Text.Utf8.decode bytes))) := by
  cases hlook : d.look p with
  | none =>
    have hthere : s.exists? d name = .ok false :=
      exists?_eq_ok_iff.mpr ⟨p, hp, by rw [Disk.exists?_eq, hlook]; rfl⟩
    rw [load, hfind, hthere]
  | some content =>
    have hthere : s.exists? d name = .ok true :=
      exists?_eq_ok_iff.mpr ⟨p, hp, by rw [Disk.exists?_eq, hlook]; rfl⟩
    have hread := Disk.read_of_look hlook
    rw [load, hfind, hthere]
    cases content <;> simp only [get, hp, bind, Except.bind, Disk.readText, hread] <;> rfl

/-- **Include lines are answered by what is at the end of their paths.** -/
theorem answers_resolve (hdirectories : ∀ p ∈ s.directories, d.bytes? p = none)
    (hnodup : ∀ p ∈ s.directories, (d.entryNames p).Nodup) (directive : Directive) (path : String) :
    s.Answers d opened allowIncludes directive path
      ((s.includes d opened allowIncludes).resolve directive path) := by
  cases directive with
  | file =>
    rw [Includes.resolve, file_includes]
    cases hname : s.nameAt? path with
    | none =>
      refine .astray fun name hplaced => ?_
      rw [nameAt?_eq_some_iff.mpr hplaced] at hname
      cases hname
    | some name =>
      have hplaced := nameAt?_eq_some_iff.mp hname
      show Answers s d opened allowIncludes .file path
        ((s.load d opened allowIncludes name).map Option.toList)
      cases hfind : opened.find? (·.name == name) with
      | some f =>
        rw [load, hfind]
        exact .opened hplaced hfind
      | none =>
        rw [load_of_path hfind (path_eq_ok_iff.mpr hplaced)]
        cases hlook : d.look (s.directory.resolve path) with
        | none => exact .missing hplaced hfind hlook
        | some content =>
          cases content with
          | none => exact .directory hplaced hfind hlook
          | some bytes => exact .stored hplaced hfind (by rw [Disk.bytes?, hlook]; rfl)
  | directory =>
    rw [Includes.resolve, directory_includes]
    by_cases hpath : s.isIncludeDirectory path = true
    · obtain ⟨main, hmain⟩ := Disk.exists_listing (hdirectories _ s.directory_mem)
      obtain ⟨included, hincluded⟩ := Disk.exists_listing (hdirectories _ s.includeDirectory_mem)
      have hstored : ∀ name ∈ includeNames included, (s.textOf? d name).isSome = true :=
        fun name hname => isSome_textOf?_iff.mpr
          ((mem_names_iff hnodup hmain hincluded).mp (List.mem_append_right _ hname))
      obtain ⟨fs, hfs, hnames, hcurrent⟩ :
          ∃ fs, s.loadAll d opened allowIncludes (includeNames included) = .ok fs ∧
            fs.map PolicyFile.name = includeNames included ∧
            ∀ f ∈ fs, s.IsCurrent d opened allowIncludes f := exists_loadAll hstored
      rw [if_pos hpath, filter_list, hmain, hincluded]
      show Answers s d opened allowIncludes .directory path
        (s.loadAll d opened allowIncludes (includeNames included))
      rw [hfs]
      exact .listed (eq_of_beq hpath) hincluded hnames hcurrent
    · rw [if_neg hpath]
      exact .elsewhere fun hsame => hpath (beq_iff_eq.mpr hsame)

/-! ## lines that lead nowhere -/

/-- The include line leads to no file that is open or stored, nor to a directory in the place of
one; or it is for the files of another directory than the include directory. -/
def Unresolved (s : Store) (d : Disk) (opened : List PolicyFile) : Directive → String → Prop
  | .file, path => ∀ name, s.Placed name (s.directory.resolve path) →
      opened.find? (·.name == name) = none ∧ d.look (s.directory.resolve path) = none
  | .directory, path => s.directory.resolve path ≠ s.includeDirectory

theorem Unresolved.eq_nil (h : s.Unresolved d opened directive path)
    {answer : Except Fault (List PolicyFile)}
    (hanswer : s.Answers d opened allowIncludes directive path answer) : answer = .ok [] := by
  cases hanswer with
  | astray | missing | elsewhere => rfl
  | opened hplaced hfind =>
    obtain ⟨hnone, -⟩ := h _ hplaced
    rw [hfind] at hnone
    cases hnone
  | stored hplaced hfind hbytes =>
    obtain ⟨-, hnone⟩ := h _ hplaced
    rw [Disk.bytes?, hnone] at hbytes
    cases hbytes
  | directory hplaced hfind hlook =>
    obtain ⟨-, hnone⟩ := h _ hplaced
    rw [hlook] at hnone
    cases hnone
  | listed hsame => exact absurd hsame h

/-- **Include lines without a file do no harm.** Let each directory of a store be a directory or
missing, with no two entries of one name. An include line stands for the file at the end of its
path, the open one or else the stored one, or for the files of the include directory; one that
leads to none of them stands for no rules, and the lines after it decide. So evaluation comes to an
answer, unless it meets the name of a policy file that is not open and has a directory in its
place. -/
theorem unresolved_lines_are_passed (s : Store) (d : Disk) (opened : List PolicyFile)
    (allowIncludes : Bool) (hdirectories : ∀ p ∈ s.directories, d.bytes? p = none)
    (hnodup : ∀ p ∈ s.directories, (d.entryNames p).Nodup) :
    (∀ directive path, s.Answers d opened allowIncludes directive path
      ((s.includes d opened allowIncludes).resolve directive path)) ∧
    (∀ request chain file l ls directive path, l.content = .includes directive path →
      s.Unresolved d opened directive path →
      Evaluation.scanLines (s.includes d opened allowIncludes) request chain file (l :: ls) =
        Evaluation.scanLines (s.includes d opened allowIncludes) request chain file ls) ∧
    ∀ request files,
      (∃ found, explain (s.includes d opened allowIncludes) request files = .ok found) ∨
      ∃ name p, s.Placed name p ∧ opened.find? (·.name == name) = none ∧ d.look p = some none ∧
        explain (s.includes d opened allowIncludes) request files =
          .error (.storage name (.unreadable .isDirectory)) := by
  have hanswers (directive : Directive) (path : String) :
      s.Answers d opened allowIncludes directive path
        ((s.includes d opened allowIncludes).resolve directive path) :=
    answers_resolve hdirectories hnodup directive path
  refine ⟨hanswers, fun request chain file l ls directive path hcontent hunresolved => ?_,
    fun request files => ?_⟩
  · have hnil := hunresolved.eq_nil (hanswers directive path)
    exact Evaluation.scanLines_cons_of_none (Evaluation.scanLine_of_includes hcontent hnil) ls
  · cases hexplain : explain (s.includes d opened allowIncludes) request files with
    | ok found => exact .inl ⟨found, rfl⟩
    | error e =>
      obtain ⟨depth, hfinishes⟩ :=
        exists_finishes_explain (s.includes d opened allowIncludes) request files
      rw [hexplain] at hfinishes
      obtain ⟨directive, path, herror⟩ := hfinishes.exists_unresolved
      have hanswer := hanswers directive path
      rw [herror] at hanswer
      cases hanswer with
      | directory hplaced hfind hlook => exact .inr ⟨_, _, hplaced, hfind, hlook, rfl⟩

/-! ## lines among what is like policy files -/

def denyingRule : Rule := ⟨.name "qubes.Gpg", .any, .literal "work", .literal "vault", .deny⟩

def strayFile : PolicyFile :=
  .ofText "10-main" true ("!include none.policy\n!include 30-user.policy/x.policy\n" ++
    "!include note.txt\n!include-dir include/sub\nqubes.Gpg * work vault deny\n")

theorem lines_strayFile : strayFile.lines =
    [⟨"!include none.policy", 1, .includes .file "none.policy"⟩,
      ⟨"!include 30-user.policy/x.policy", 2, .includes .file "30-user.policy/x.policy"⟩,
      ⟨"!include note.txt", 3, .includes .file "note.txt"⟩,
      ⟨"!include-dir include/sub", 4, .includes .directory "include/sub"⟩,
      ⟨"qubes.Gpg * work vault deny", 5, .rule denyingRule⟩] := by
  decide +kernel

theorem unresolved_lines_are_passed_stray :
    (∀ p ∈ nested.directories, crowdedDisk.bytes? p = none) ∧
    (∀ p ∈ nested.directories, (crowdedDisk.entryNames p).Nodup) ∧
    explain (nested.includes crowdedDisk [] true) gpgRequest [strayFile] =
      .ok (some ⟨denyingRule, 5, "10-main"⟩) := by
  have hdirectories : ∀ p ∈ nested.directories, crowdedDisk.bytes? p = none := by decide +kernel
  have hnodup : ∀ p ∈ nested.directories, (crowdedDisk.entryNames p).Nodup := by decide +kernel
  obtain ⟨-, hpassed, -⟩ :=
    unresolved_lines_are_passed nested crowdedDisk [] true hdirectories hnodup
  have hnothing : nested.Unresolved crowdedDisk [] .file "none.policy" :=
    fun _ _ => ⟨rfl, by decide +kernel⟩
  have hbelow : nested.Unresolved crowdedDisk [] .file "30-user.policy/x.policy" :=
    fun _ _ => ⟨rfl, by decide +kernel⟩
  have hnote : nested.Unresolved crowdedDisk [] .file "note.txt" := by
    intro name hplaced
    have hnone : nested.nameAt? "note.txt" = none := by decide +kernel
    rw [nameAt?_eq_some_iff.mpr hplaced] at hnone
    cases hnone
  have helsewhere : nested.Unresolved crowdedDisk [] .directory "include/sub" := by
    show nested.directory.resolve "include/sub" ≠ nested.includeDirectory
    decide +kernel
  have hcovers : denyingRule.covers gpgRequest = true := by decide
  have hname : strayFile.name = "10-main" := PolicyFile.name_ofText _ _ _
  refine ⟨hdirectories, hnodup, ?_⟩
  rw [explain, Evaluation.scanFile, hname, lines_strayFile, hpassed _ _ _ _ _ _ _ rfl hnothing,
    hpassed _ _ _ _ _ _ _ rfl hbelow, hpassed _ _ _ _ _ _ _ rfl hnote,
    hpassed _ _ _ _ _ _ _ rfl helsewhere, Evaluation.scanLines_cons_of_covers rfl hcovers]

/-- The include line leads to a directory that is named like a policy file. -/
def stoppingFile : PolicyFile :=
  .ofText "10-main" true "!include old.policy\nqubes.Gpg * work vault deny\n"

/-- **A directory in the place of a policy file stops evaluation**: there is no policy file, and yet
the rule behind the include line does not decide. -/
theorem directory_stops_evaluation :
    (∀ p ∈ nested.directories, crowdedDisk.bytes? p = none) ∧
    (∀ p ∈ nested.directories, (crowdedDisk.entryNames p).Nodup) ∧
    crowdedDisk.bytes? (nested.directory.resolve "old.policy") = none ∧
    explain (nested.includes crowdedDisk [] true) gpgRequest [stoppingFile] =
      .error (.storage "old" (.unreadable .isDirectory)) := by
  refine ⟨by decide +kernel, by decide +kernel, by decide +kernel, ?_⟩
  have hlines : stoppingFile.lines =
      [⟨"!include old.policy", 1, .includes .file "old.policy"⟩,
        ⟨"qubes.Gpg * work vault deny", 2, .rule denyingRule⟩] := by
    decide +kernel
  have hanswer : (nested.includes crowdedDisk [] true).resolve .file "old.policy" =
      .error (.storage "old" (.unreadable .isDirectory)) := by
    rfl
  rw [explain, Evaluation.scanFile, hlines, Evaluation.scanLines_cons,
    Evaluation.scanLine_of_unresolved rfl hanswer]

end Store

end QubePolicy
