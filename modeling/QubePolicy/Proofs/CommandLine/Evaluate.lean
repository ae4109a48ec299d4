import QubePolicy.CommandLine
import QubePolicy.Proofs.PolicyFile.Reload
import QubePolicy.Proofs.Session.Preview

/-!
# The preview and the command line

A session whose open files are as they are stored decides each request as the command line does,
which reads all of them anew.

* `PolicyFile.alike_reload`   a file is like the one that is read back from its text;
* `Store.stored`, `Store.Mirrors`   the stored files, and open ones that are like them;
* `Store.answersAlike`        then include lines are answered as without open files;
* `Session.HoldsStored`       a session holds the stored main files, some include files and no others,
                              all as they are stored;
* `Workspace.preview_eq_evaluate`   then the preview is what the command line finds.
-/

namespace QubePolicy

/-! ## files read back -/

theorem PolicyFile.alike_reload {f : PolicyFile} (h : f.Plain) : (f.withText f.text).Alike f := by
  refine ⟨rfl, ?_⟩
  rcases lines_reload h with hlines | ⟨number, hlines⟩
  · rw [hlines]
  · rw [hlines, List.filter_append]
    simp

/-! ## answers to include lines -/

theorem Evaluation.AnswersAlike.append {ε : Type} {x x' y y' : Except ε (List PolicyFile)}
    (hx : AnswersAlike x x') (hy : AnswersAlike y y') :
    AnswersAlike (x.bind fun fs => y.map (fs ++ ·)) (x'.bind fun fs => y'.map (fs ++ ·)) := by
  cases hx with
  | fails e => exact .fails e
  | files hfiles =>
    cases hy with
    | fails e => exact .fails e
    | files hmore => exact .files (List.rel_append hfiles hmore)

namespace Store

open Evaluation (AnswersAlike)

variable {s : Store} {d : Disk} {opened : List PolicyFile}

def stored (s : Store) (d : Disk) (name : String) : PolicyFile :=
  .ofText name true ((s.textOf? d name).getD "")

theorem stored_of_textOf? {name text : String} (h : s.textOf? d name = some text) :
    s.stored d name = .ofText name true text := by
  rw [stored, h, Option.getD_some]

def Mirrors (s : Store) (d : Disk) (opened : List PolicyFile) : Prop :=
  ∀ name f, opened.find? (·.name == name) = some f →
    (s.textOf? d name).isSome = true ∧ (s.stored d name).Alike f

theorem answersAlike_load (h : s.Mirrors d opened) (name : String) :
    AnswersAlike ((s.load d [] true name).map Option.toList)
      ((s.load d opened true name).map Option.toList) := by
  cases hfind : opened.find? (·.name == name) with
  | none =>
    have hsame : s.load d opened true name = s.load d [] true name := by
      rw [load, load, hfind, List.find?_nil]
    rw [hsame]
    exact .refl _
  | some f =>
    obtain ⟨hstored, halike⟩ := h name f hfind
    obtain ⟨text, htext⟩ := Option.isSome_iff_exists.mp hstored
    have hopen : s.load d opened true name = .ok (some f) := by rw [load, hfind]
    rw [load_of_textOf? rfl htext, ← stored_of_textOf? htext, hopen]
    exact .files (.cons halike .nil)

theorem answersAlike_loadAll (h : s.Mirrors d opened) (names : List String) :
    AnswersAlike (s.loadAll d [] true names) (s.loadAll d opened true names) := by
  induction names with
  | nil => exact .refl _
  | cons name names ih =>
    rw [loadAll_cons, loadAll_cons]
    exact (answersAlike_load h name).append ih

/-- **Include lines are answered as without open files**, if those are like the stored ones. -/
theorem answersAlike (h : s.Mirrors d opened) (directive : Directive) (path : String) :
    AnswersAlike ((s.includes d [] true).resolve directive path)
      ((s.includes d opened true).resolve directive path) := by
  cases directive with
  | file =>
    rw [Includes.resolve, Includes.resolve, file_includes, file_includes]
    cases s.nameAt? path with
    | none => exact .refl _
    | some name => exact answersAlike_load h name
  | directory =>
    rw [Includes.resolve, Includes.resolve, directory_includes, directory_includes]
    split
    · cases (s.list d).map (List.filter PolicyName.isInclude) with
      | error e => exact .fails e
      | ok names => exact answersAlike_loadAll h names
    · exact .refl _

theorem pairwise_mainNames {names : List String} (h : s.list d = .ok names) :
    (names.filter fun n => !PolicyName.isInclude n).Pairwise
      fun a b => (!Text.before b a) = true := by
  rw [list_eq] at h
  split at h
  · next main included _ _ =>
    cases h
    rw [filter_not_isInclude]
    exact Text.pairwise_mergeSort_key id _
  · cases h

end Store

/-! ## files of the command line -/

theorem CommandLine.loadFiles_eq_ok {s : Store} {d : Disk} {names : List String}
    (h : ∀ name ∈ names, (s.textOf? d name).isSome = true) :
    loadFiles s d names = .ok (names.map (s.stored d)) := by
  induction names with
  | nil => rfl
  | cons name names ih =>
    obtain ⟨text, htext⟩ := Option.isSome_iff_exists.mp (h name List.mem_cons_self)
    have hget : s.get d name = .ok (text, .ofText text) := Store.get_eq_ok_iff.mpr ⟨htext, rfl⟩
    rw [loadFiles, hget, ih fun n hn => h n (List.mem_cons_of_mem name hn), List.map_cons,
      Store.stored_of_textOf? htext]
    rfl

namespace Session

variable {s : Session} {d : Disk} {names : List String}

/-! ## files of a session -/

theorem isSome_find?_iff {name : String} : (s.find? name).isSome = true ↔ name ∈ s.files := by
  rw [files, Text.sort, List.mem_mergeSort, find?, List.find?_isSome, List.mem_map]
  simp only [beq_iff_eq]

def held (s : Session) (name : String) : PolicyFile :=
  ((s.find? name).map OpenFile.file).getD (.empty name s.allowIncludes)

theorem mainFiles_eq (s : Session) :
    s.mainFiles = (s.files.filter fun n => !PolicyName.isInclude n).map s.held := by
  have hheld : ∀ name ∈ s.files.filter fun n => !PolicyName.isInclude n,
      (s.find? name).map OpenFile.file = (some ∘ s.held) name := by
    intro name hname
    obtain ⟨o, ho⟩ := Option.isSome_iff_exists.mp
      (isSome_find?_iff.mpr (List.mem_filter.mp hname).1)
    rw [Function.comp_apply, held, ho]
    rfl
  rw [mainFiles, List.map_filterMap, List.filterMap_congr hheld, List.filterMap_eq_map]

/-- The session holds all stored main files, some of the stored include files and no others. They are
open with the permission to include that is the default, they are not modified, and each is stored
with the text that it had when it was loaded or saved. -/
structure HoldsStored (s : Session) (d : Disk) (names : List String) : Prop where
  main : ∀ name ∈ names, PolicyName.isInclude name = false → (s.find? name).isSome = true
  listed : ∀ o ∈ s.opened, o.file.name ∈ names
  allowed : ∀ o ∈ s.opened, o.file.allowIncludes = true
  unmodified : ∀ o ∈ s.opened, o.isModified = false
  unchanged : ∀ o ∈ s.opened, s.store.textOf? d o.file.name = some o.savedText

theorem HoldsStored.alike (h : s.HoldsStored d names) (hplain : s.Plain) {name : String}
    {o : OpenFile} (ho : s.find? name = some o) :
    (s.store.textOf? d name).isSome = true ∧ (s.store.stored d name).Alike o.file := by
  have hmem : o ∈ s.opened := List.mem_of_find?_eq_some ho
  have hname : o.file.name = name := name_of_find? ho
  have hstored : s.store.textOf? d name = some o.savedText := hname ▸ h.unchanged o hmem
  have htext : o.file.text = o.savedText := by simpa [OpenFile.isModified] using h.unmodified o hmem
  have halike := PolicyFile.alike_reload (hplain name o ho)
  rw [PolicyFile.withText, hname, h.allowed o hmem, htext,
    ← Store.stored_of_textOf? hstored] at halike
  exact ⟨by rw [hstored]; rfl, halike⟩

theorem HoldsStored.mirrors (h : s.HoldsStored d names) (hplain : s.Plain) :
    s.store.Mirrors d (s.opened.map OpenFile.file) := by
  intro name f hfind
  rw [find?_files] at hfind
  obtain ⟨o, ho, rfl⟩ := Option.map_eq_some_iff.mp hfind
  exact h.alike hplain ho

theorem HoldsStored.alike_held (h : s.HoldsStored d names) (hplain : s.Plain) {name : String}
    (hname : name ∈ names.filter fun n => !PolicyName.isInclude n) :
    (s.store.textOf? d name).isSome = true ∧ (s.store.stored d name).Alike (s.held name) := by
  obtain ⟨hlisted, hmain⟩ := List.mem_filter.mp hname
  obtain ⟨o, ho⟩ := Option.isSome_iff_exists.mp (h.main name hlisted (by simpa using hmain))
  have hheld : s.held name = o.file := by rw [held, ho]; rfl
  rw [hheld]
  exact h.alike hplain ho

theorem HoldsStored.mem_files_iff (h : s.HoldsStored d names) (name : String) :
    name ∈ s.files.filter (fun n => !PolicyName.isInclude n) ↔
      name ∈ names.filter fun n => !PolicyName.isInclude n := by
  simp only [List.mem_filter, ← isSome_find?_iff, Bool.not_eq_true']
  constructor
  · rintro ⟨hopen, hmain⟩
    obtain ⟨o, ho⟩ := Option.isSome_iff_exists.mp hopen
    have hlisted := h.listed o (List.mem_of_find?_eq_some ho)
    rw [name_of_find? ho] at hlisted
    exact ⟨hlisted, hmain⟩
  · rintro ⟨hname, hmain⟩
    exact ⟨h.main name hname hmain, hmain⟩

/-- **The preview is what the command line finds**, if the open files are as they are stored. -/
theorem preview_eq_explain (h : s.HoldsStored d names) (hplain : s.Plain)
    (hallow : s.allowIncludes = true) (hlist : s.store.list d = .ok names) :
    ∃ files, CommandLine.mainFiles s.store d = .ok files ∧ ∀ request,
      s.preview d request = explain (s.store.includes d [] true) request files := by
  have hstored (name : String) (hname : name ∈ names.filter fun n => !PolicyName.isInclude n) :=
    h.alike_held hplain hname
  refine ⟨(names.filter fun n => !PolicyName.isInclude n).map (s.store.stored d), ?_,
    fun request => ?_⟩
  · rw [CommandLine.mainFiles, hlist]
    exact CommandLine.loadFiles_eq_ok fun name hname => (hstored name hname).1
  · have halike : List.Forall₂ PolicyFile.Alike
        ((names.filter fun n => !PolicyName.isInclude n).map (s.store.stored d))
        ((names.filter fun n => !PolicyName.isInclude n).map s.held) := by
      rw [List.forall₂_map_left_iff, List.forall₂_map_right_iff]
      exact List.forall₂_same.mpr fun name hname => (hstored name hname).2
    -- both lists of names are sorted and have the same members; a name that one of them repeats
    -- decides nothing the second time
    have hsorted : (s.files.filter fun n => !PolicyName.isInclude n).Pairwise
        fun a b => (!Text.before b a) = true := (Text.pairwise_mergeSort_key id _).filter _
    rw [← Evaluation.explain_alike request (Store.answersAlike (h.mirrors hplain)) halike, preview,
      hallow, mainFiles_eq, Evaluation.explain_eq_find?, Evaluation.explain_eq_find?,
      Text.find?_eq_of_mem_iff hsorted (Store.pairwise_mainNames hlist) h.mem_files_iff]

end Session

namespace Workspace

variable {ι : Type} [DecidableEq ι] {store : Store}

/-- **The preview and the command line agree**, whatever has happened: if both directories can be
listed and the files that a session holds open are as they are stored, the command line reads its
main files, and each request comes to what the preview says. -/
theorem preview_eq_evaluate {w : Workspace ι} (hw : w.Fresh store) (es : List (Event ι)) (i : ι)
    (hallow : (w.sessions i).allowIncludes = true) {names : List String}
    (hlist : store.list (w.run es).host.disk = .ok names)
    (hstored : ((w.run es).sessions i).HoldsStored (w.run es).host.disk names) :
    ∃ files, CommandLine.mainFiles store (w.run es).host.disk = .ok files ∧ ∀ request,
      ((w.run es).sessions i).preview (w.run es).host.disk request =
        explain (store.includes (w.run es).host.disk [] true) request files := by
  have hplace : ((w.run es).sessions i).store = store :=
    (holds_after_run (Session.invariant_places store (w.sessions i).audit) ⟨(hw i).1, rfl⟩ es).1
  have hplain : ((w.run es).sessions i).Plain := by
    refine holds_after_run Session.invariant_plain (fun name o ho => ?_) es
    rw [Session.find?, (hw i).2] at ho
    cases ho
  have hallow' : ((w.run es).sessions i).allowIncludes = true :=
    holds_after_run (Session.invariant_allowIncludes true) hallow es
  subst hplace
  exact Session.preview_eq_explain hstored hplain hallow' hlist

/-! ## a session with files edited and undone -/

def storedBoth : List (String × FileTree) :=
  [("30-user.policy", .file (Text.Utf8.encode includingFile.text)),
    ("include", .directory [("gpg", .file (Text.Utf8.encode includedFile.text))])]

def undoingEvents : List (Event Unit) :=
  [.command () (.open "30-user" none), .command () (.open "include/gpg" none),
    .command () (.setText "30-user" "# none\n"),
    .command () (.setText "30-user" includingFile.text)]

theorem list_storedBoth : policyStore.list ⟨.directory [("policy", .directory storedBoth)]⟩ =
    .ok ["30-user", "include/gpg"] := by
  have hmain : (["30-user.policy"].filterMap (Text.before? ".policy")).filter Text.isFileName =
      ["30-user"] := by
    decide
  have hincluded : ["gpg"].filter Text.isFileName = ["gpg"] := by decide
  show Except.ok (Text.sort ((["30-user.policy"].filterMap (Text.before? ".policy")).filter
    Text.isFileName) ++ (Text.sort (["gpg"].filter Text.isFileName)).map ("include/" ++ ·)) = _
  rw [hmain, hincluded, Text.sort, Text.sort, List.mergeSort_singleton, List.mergeSort_singleton]
  rfl

theorem preview_eq_evaluate_undoing :
    let w := (policySession none storedBoth).run undoingEvents
    (policySession none storedBoth).Fresh policyStore ∧
    policyStore.list w.host.disk = .ok ["30-user", "include/gpg"] ∧
    (w.sessions ()).HoldsStored w.host.disk ["30-user", "include/gpg"] ∧
    ∃ files, CommandLine.mainFiles policyStore w.host.disk = .ok files ∧
      (w.sessions ()).preview w.host.disk gpgRequest =
        explain (policyStore.includes w.host.disk [] true) gpgRequest files := by
  intro w
  have hfresh : (policySession none storedBoth).Fresh policyStore := fun _ => ⟨rfl, rfl⟩
  have hlist : policyStore.list w.host.disk = .ok ["30-user", "include/gpg"] := list_storedBoth
  have hstored : (w.sessions ()).HoldsStored w.host.disk ["30-user", "include/gpg"] := by
    have hopened : (∀ name ∈ ["30-user", "include/gpg"], PolicyName.isInclude name = false →
          ((w.sessions ()).find? name).isSome = true) ∧
        ∀ o ∈ (w.sessions ()).opened, o.file.name ∈ ["30-user", "include/gpg"] ∧
          o.file.allowIncludes = true ∧ o.isModified = false ∧
          policyStore.textOf? w.host.disk o.file.name = some o.savedText := by
      decide +kernel
    obtain ⟨hmain, hall⟩ := hopened
    exact ⟨hmain, fun o ho => (hall o ho).1, fun o ho => (hall o ho).2.1,
      fun o ho => (hall o ho).2.2.1, fun o ho => (hall o ho).2.2.2⟩
  obtain ⟨files, hfiles, hpreview⟩ :=
    preview_eq_evaluate hfresh undoingEvents () rfl hlist hstored
  exact ⟨hfresh, hlist, hstored, files, hfiles, hpreview gpgRequest⟩

/-! ## a file in the place of the include directory -/

def denyingFile : PolicyFile := .ofText "30-user" true "qubes.Gpg * work vault deny\n"

theorem lines_denyingFile : denyingFile.lines =
    [⟨"qubes.Gpg * work vault deny", 1, .rule (gpgRule .deny)⟩] := by
  decide +kernel

def brokenInclude : List (String × FileTree) :=
  [("30-user.policy", .file (Text.Utf8.encode denyingFile.text)), ("include", .file [])]

theorem eq_of_stored {name text : String} (h : policyStore.textOf?
      ⟨.directory [("policy", .directory brokenInclude)]⟩ name = some text) : name = "30-user" := by
  obtain ⟨p, hp, hread⟩ := Store.textOf?_eq_some_iff.mp h
  obtain ⟨bytes, hbytes, -⟩ := Disk.readText_eq_ok_iff.mp hread
  rcases Store.path_eq_ok hp with ⟨-, base, -, -, rfl⟩ | ⟨-, -, rfl⟩
  · cases hbytes
  · have hlook : ((FileTree.directory brokenInclude).look [name ++ ".policy"]).join = some bytes :=
      hbytes
    have hmain : Text.before? ".policy" "30-user.policy" = some "30-user" := by decide
    have hinclude : Text.before? ".policy" "include" = none := by decide
    rw [FileTree.look_directory_cons, brokenInclude, FileTree.lookup_cons,
      FileTree.lookup_cons] at hlook
    split at hlook
    · next hname =>
      rw [Text.before?_eq_some_iff.mpr hname.symm] at hmain
      exact Option.some.inj hmain
    · split at hlook
      · next hname =>
        rw [Text.before?_eq_some_iff.mpr hname.symm] at hinclude
        cases hinclude
      · cases hlook

theorem mainFiles_singleton {s : Session} {f : PolicyFile} (h : s.opened.map OpenFile.file = [f])
    (hmain : PolicyName.isInclude f.name = false) : s.mainFiles = [f] := by
  have hnames : s.opened.map (·.file.name) = [f.name] := by
    have hfiles := congrArg (List.map PolicyFile.name) h
    rwa [List.map_map] at hfiles
  have hfiles : s.files = [f.name] := by
    rw [Session.files, hnames, Text.sort, List.mergeSort_singleton]
  have hheld : s.held f.name = f := by
    rw [Session.held, ← Session.find?_files, h, List.find?_cons_of_pos (by simp)]
    rfl
  rw [Session.mainFiles_eq, hfiles, List.filter_cons_of_pos (by simp [hmain]), List.filter_nil,
    List.map_cons, hheld, List.map_nil]

/-- **Where the stored files cannot be listed, the two differ**: the one file that is stored is open
as it is stored, and the preview decides by it, but the command line fails. -/
theorem preview_decides_unlisted :
    let w := (policySession none brokenInclude).run [.command () (.open "30-user" none)]
    let s := w.sessions ()
    (∀ name text, policyStore.textOf? w.host.disk name = some text → name = "30-user") ∧
    s.opened.map OpenFile.file = [denyingFile] ∧
    (∀ o ∈ s.opened, o.isModified = false ∧
      policyStore.textOf? w.host.disk o.file.name = some o.savedText) ∧
    s.preview w.host.disk gpgRequest = .ok (some ⟨gpgRule .deny, 1, "30-user"⟩) ∧
    CommandLine.mainFiles policyStore w.host.disk = .error (.system .notDirectory) ∧
    (CommandLine.evaluateRequest policyStore gpgRequest w.host).1 = 1 := by
  intro w s
  have hopened : s.opened.map OpenFile.file = [denyingFile] := by decide +kernel
  have hcovers : (gpgRule .deny).covers gpgRequest = true := by decide
  have hname : denyingFile.name = "30-user" := rfl
  have hfails : CommandLine.mainFiles policyStore w.host.disk = .error (.system .notDirectory) :=
    rfl
  refine ⟨fun name text h => eq_of_stored h, hopened, by decide +kernel, ?_, hfails, ?_⟩
  · rw [Session.preview, mainFiles_singleton hopened (by decide +kernel), explain,
      Evaluation.scanFile, hname, lines_denyingFile, Evaluation.scanLines_cons,
      Evaluation.scanLine_of_rule rfl, if_pos hcovers]
  · rw [CommandLine.evaluateRequest, hfails]
    rfl

end Workspace

end QubePolicy
