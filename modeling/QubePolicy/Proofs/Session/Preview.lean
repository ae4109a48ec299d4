import QubePolicy.Proofs.AuditLog.Aside
import QubePolicy.Proofs.Evaluation.Flattening
import QubePolicy.Proofs.Session.Invariants
import QubePolicy.Proofs.Store.Includes
import QubePolicy.Proofs.Text.Order

/-!
# What the preview shows of saving

The preview is meant to show what saving will bring about.  It does so for all files but one kind:
an include file that was never saved is passed over by the lines that name the include directory,
until it is saved.

* `Session.Distinct`         no two open files share a name;
* `Session.HoldsAlike`       two sessions hold the same files open;
* `Session.preview_congr`    they show the same preview on disks that answer include lines alike;
* `Session.preview_save`     saving one file leaves the preview, if no include file is new;
* `Session.saveAll`          files saved one after another;
* `Workspace.preview_once_saved`  saving any files leaves the preview, if no include file is new;
* `Workspace.preview_misses_creating`  with a new include file it may not.
-/

namespace QubePolicy

namespace Session

variable {s s' : Session} {d d' : Disk} {host host' : Host} {name : String} {o : OpenFile}

/-! ## names of open files -/

def names (s : Session) : List String := s.opened.map (·.file.name)

def Distinct (s : Session) : Prop := s.names.Nodup

theorem names_put (s : Session) (o : OpenFile) :
    (s.put o).names = s.names.filter (· != o.file.name) ++ [o.file.name] := by
  show ((s.opened.filter (·.file.name != o.file.name)) ++ [o]).map (·.file.name) = _
  rw [List.map_append, names, List.filter_map]
  rfl

theorem names_remove (s : Session) (name : String) :
    (s.remove name).names = s.names.filter (· != name) := by
  rw [names, names, List.filter_map]
  rfl

theorem Distinct.put (h : s.Distinct) (o : OpenFile) : (s.put o).Distinct := by
  rw [Distinct, names_put]
  refine List.Nodup.append (h.filter _) (List.nodup_singleton _) ?_
  intro name hname hlast
  rw [List.mem_singleton.mp hlast] at hname
  simpa using (List.mem_filter.mp hname).2

theorem Distinct.remove (h : s.Distinct) (name : String) : (s.remove name).Distinct := by
  rw [Distinct, names_remove]
  exact h.filter _

theorem invariant_distinct : Invariant Distinct where
  save h hsave := by
    obtain ⟨o, p, written, -, -, -, -, -, rfl, -⟩ := save_eq_ok hsave
    exact h.put _
  effect h heffect := by
    cases heffect with
    | asked | held => exact h
    | closed => exact h.remove _
    | opened | created | emptied | reloaded | edited => exact h.put _

theorem mem_names_of_find? (h : s.find? name = some o) : name ∈ s.names :=
  List.mem_map.mpr ⟨o, List.mem_of_find?_eq_some h, name_of_find? h⟩

theorem files_put (hd : s.Distinct) (ho : s.find? name = some o) {o' : OpenFile}
    (hname : o'.file.name = name) : (s.put o').files = s.files := by
  refine Text.sort_eq_of_perm ?_
  show (s.put o').names.Perm s.names
  rw [names_put, hname, ← hd.erase_eq_filter]
  exact (List.perm_append_singleton name _).trans
    (List.perm_cons_erase (mem_names_of_find? ho)).symm

/-! ## sessions with the same files -/

/-- The second session holds the same files open as the first one. -/
structure HoldsAlike (s s' : Session) : Prop where
  store : s'.store = s.store
  allowIncludes : s'.allowIncludes = s.allowIncludes
  files : s'.files = s.files
  file : ∀ name, (s'.find? name).map OpenFile.file = (s.find? name).map OpenFile.file

theorem find?_files (s : Session) (name : String) :
    (s.opened.map OpenFile.file).find? (·.name == name) = (s.find? name).map OpenFile.file := by
  rw [List.find?_map]
  rfl

theorem mainFiles_congr (h : s.HoldsAlike s') : s'.mainFiles = s.mainFiles := by
  unfold mainFiles
  rw [h.files, List.map_filterMap, List.map_filterMap]
  exact congrArg (fun f => List.filterMap f _) (funext h.file)

/-- **Sessions that hold the same files show the same preview** on disks that answer include lines
alike. -/
theorem preview_congr (h : s.HoldsAlike s') (hlists : s.store.ListsAlike d d')
    (hagree : s.store.AgreeUnopened (s.opened.map OpenFile.file) d d') (request : Request) :
    s'.preview d' request = s.preview d request := by
  unfold preview
  rw [mainFiles_congr h, h.store, h.allowIncludes]
  refine Evaluation.explain_congr request (Store.resolve_congr hlists (fun name => ?_) hagree) _
  rw [find?_files, find?_files, h.file]

theorem holdsAlike_save (hd : s.Distinct) (h : s.save host name = (.ok (), s', host')) :
    s.HoldsAlike s' := by
  obtain ⟨o, p, written, ho, -, -, -, -, rfl, -⟩ := save_eq_ok h
  have hname := name_of_find? ho
  refine ⟨rfl, rfl, files_put hd ho hname, fun other => ?_⟩
  rw [find?_put]
  by_cases hother : other = name
  · rw [hother, if_pos hname.symm, ho]
    rfl
  · rw [if_neg fun h => hother (h.trans hname)]

/-! ## what saving leaves -/

def AuditsClear (s : Session) (now : Instant) : Prop :=
  ∀ a, s.audit = some a → a.Clear s.store now

theorem listing_record (host : Host) (hclear : s.AuditsClear host.now) {directory : Path}
    (hdirectory : directory ∈ s.store.directories) (file : String) (outcome : AuditLog.Outcome)
    (diagnostics : List Diagnostic) (reason : Option String) :
    (s.record file outcome diagnostics reason host).disk.listing directory =
      host.disk.listing directory := by
  unfold record
  cases haudit : s.audit with
  | none => rfl
  | some a =>
    exact AuditLog.listing_record file outcome diagnostics reason
      ((hclear a haudit).outside directory hdirectory)

theorem look_record (host : Host) (hclear : s.AuditsClear host.now) {p : Path}
    (hp : s.store.path name = .ok p) (file : String) (outcome : AuditLog.Outcome) (diagnostics : List Diagnostic)
    (reason : Option String) :
    (s.record file outcome diagnostics reason host).disk.look p = host.disk.look p := by
  unfold record
  cases haudit : s.audit with
  | none => rfl
  | some a =>
    exact AuditLog.look_record file outcome diagnostics reason ((hclear a haudit).outside.path hp)
      fun stop hstop => (hclear a haudit).way stop hstop name p hp

theorem now_save (h : s.save host name = (.ok (), s', host')) : host'.now = host.now := by
  obtain ⟨o, p, written, -, -, -, -, -, -, rfl⟩ := save_eq_ok h
  unfold record
  cases s.audit with
  | none => rfl
  | some a => exact AuditLog.now_record _ _ _ _ _

theorem look_save (hs : s.store.SparesDirectories) (hclear : s.AuditsClear host.now)
    (h : s.save host name = (.ok (), s', host')) {other : String} {q : Path}
    (hq : s.store.path other = .ok q) (hother : other ≠ name) :
    host'.disk.look q = host.disk.look q := by
  obtain ⟨o, p, written, -, -, hp, -, hwritten, rfl, rfl⟩ := save_eq_ok h
  have hne : q ≠ p := fun hqp => hother (Store.path_inj (hqp ▸ hq) hp)
  rw [look_record { host with disk := written } hclear hq,
    Store.look_writeAt hs hp hq hwritten, if_neg hne]

theorem listsAlike_save (hs : s.store.SparesDirectories) (hclear : s.AuditsClear host.now)
    (hstored : PolicyName.isInclude name = true → s.store.exists? host.disk name = .ok true)
    (h : s.save host name = (.ok (), s', host')) : s.store.ListsAlike host.disk host'.disk := by
  obtain ⟨o, p, written, -, -, hp, -, hwritten, rfl, rfl⟩ := save_eq_ok h
  have hthere (hinclude : PolicyName.isInclude name = true) : host.disk.exists? p = true := by
    obtain ⟨q, hq, hthere⟩ := Store.exists?_eq_ok_iff.mp (hstored hinclude)
    obtain rfl : p = q := Except.ok.inj (hp.symm.trans hq)
    exact hthere
  have hlists := Store.listsAlike_writeAt hs hp hthere hwritten
  have hrecord {directory : Path} (hdirectory : directory ∈ s.store.directories) :=
    listing_record { host with disk := written } hclear hdirectory name .saved
      o.file.diagnostics none
  constructor
  · rw [hrecord s.store.directory_mem]
    exact hlists.main
  · rw [hrecord s.store.includeDirectory_mem]
    exact hlists.included

/-- **Saving a file leaves the preview**, if it is no new include file. -/
theorem preview_save (hd : s.Distinct) (hs : s.store.SparesDirectories)
    (hclear : s.AuditsClear host.now)
    (hstored : PolicyName.isInclude name = true → s.store.exists? host.disk name = .ok true)
    (h : s.save host name = (.ok (), s', host')) (request : Request) :
    s'.preview host'.disk request = s.preview host.disk request := by
  refine preview_congr (holdsAlike_save hd h) (listsAlike_save hs hclear hstored h) ?_ request
  intro other q hnone hq
  refine look_save hs hclear h hq fun hother => ?_
  obtain ⟨o, p, written, ho, -⟩ := save_eq_ok h
  rw [find?_files, hother, ho] at hnone
  cases hnone

/-! ## saving files one after another -/

/-- The open files with the given names saved one after another, if each of them can be. -/
def saveAll (s : Session) (host : Host) : List String → Option (Session × Host)
  | [] => some (s, host)
  | name :: names =>
    match s.save host name with
    | (.ok (), s', host') => saveAll s' host' names
    | (.error _, _, _) => none

theorem saveAll_cons_eq_some {names : List String} {saved : Session × Host} :
    s.saveAll host (name :: names) = some saved ↔
      ∃ s' host', s.save host name = (.ok (), s', host') ∧ s'.saveAll host' names = some saved := by
  rw [saveAll]
  rcases s.save host name with ⟨result, s', host'⟩
  cases result with
  | ok u => simp
  | error e => simp

theorem exists?_save (hs : s.store.SparesDirectories) (hclear : s.AuditsClear host.now)
    (h : s.save host name = (.ok (), s', host')) {other : String}
    (hstored : s.store.exists? host.disk other = .ok true) :
    s.store.exists? host'.disk other = .ok true := by
  by_cases hother : other = name
  · obtain ⟨o, p, written, -, -, hp, -, hwritten, rfl, rfl⟩ := save_eq_ok h
    refine Store.exists?_eq_ok_iff.mpr ⟨p, hother ▸ hp, ?_⟩
    rw [Disk.exists?_eq, look_record { host with disk := written } hclear hp,
      Store.look_writeAt hs hp hp hwritten, if_pos rfl]
    rfl
  · rwa [Store.exists?_congr fun q hq => look_save hs hclear h hq hother]

/-- **Saving files leaves the preview**, if none is a new include file. -/
theorem preview_saveAll {names : List String} (hd : s.Distinct) (hs : s.store.SparesDirectories)
    (hclear : s.AuditsClear host.now)
    (hstored : ∀ name ∈ names, PolicyName.isInclude name = true →
      s.store.exists? host.disk name = .ok true)
    (h : s.saveAll host names = some (s', host')) (request : Request) :
    s'.preview host'.disk request = s.preview host.disk request := by
  induction names generalizing s host with
  | nil =>
    cases h
    rfl
  | cons name names ih =>
    obtain ⟨s₁, host₁, hsave, h⟩ := saveAll_cons_eq_some.mp h
    have hstored₁ : ∀ other ∈ names, PolicyName.isInclude other = true →
        s.store.exists? host₁.disk other = .ok true := fun other hother hinclude =>
      exists?_save hs hclear hsave (hstored other (List.mem_cons_of_mem name hother) hinclude)
    have hclear₁ : s.AuditsClear host₁.now := by
      rw [now_save hsave]
      exact hclear
    have hplaces := (invariant_places s.store s.audit).save ⟨rfl, rfl⟩ hsave
    rw [← preview_save hd hs hclear (hstored name List.mem_cons_self) hsave request]
    refine ih (invariant_distinct.save hd hsave) ?_ ?_ ?_ h
    · rwa [hplaces.1]
    · intro a ha
      rw [hplaces.1]
      exact hclear₁ a (hplaces.2 ▸ ha)
    · rwa [hplaces.1]

end Session

namespace Workspace

variable {ι : Type} [DecidableEq ι] {store : Store}

/-- **The preview shows what saving brings about**, whatever has happened: once any of the open files
are saved, one after another, each request is decided as the preview has said, if the include files
among them have been stored before. -/
theorem preview_once_saved {w : Workspace ι} (hw : w.Fresh store) (es : List (Event ι)) (i : ι)
    (hstore : store.SparesDirectories)
    (hclear : ∀ a, (w.sessions i).audit = some a → a.Clear store (w.run es).host.now)
    (names : List String)
    (hstored : ∀ name ∈ names, PolicyName.isInclude name = true →
      store.exists? (w.run es).host.disk name = .ok true)
    {s' : Session} {host' : Host}
    (hsaved : ((w.run es).sessions i).saveAll (w.run es).host names = some (s', host'))
    (request : Request) :
    s'.preview host'.disk request =
      ((w.run es).sessions i).preview (w.run es).host.disk request := by
  obtain ⟨hplace, haudit⟩ : ((w.run es).sessions i).store = store ∧
      ((w.run es).sessions i).audit = (w.sessions i).audit :=
    holds_after_run (Session.invariant_places store (w.sessions i).audit) ⟨(hw i).1, rfl⟩ es
  have hdistinct : ((w.run es).sessions i).Distinct := by
    refine holds_after_run Session.invariant_distinct ?_ es
    rw [Session.Distinct, Session.names, (hw i).2]
    exact List.nodup_nil
  have hclear' : ((w.run es).sessions i).AuditsClear (w.run es).host.now := by
    intro a ha
    rw [hplace]
    exact hclear a (haudit ▸ ha)
  subst hplace
  exact Session.preview_saveAll hdistinct hstore hclear' hstored hsaved request

/-! ## a main file that includes the include directory -/

def includingFile : PolicyFile :=
  .ofText "30-user" true "!include-dir include\nqubes.Gpg * work vault deny\n"

def includedFile : PolicyFile := .ofText "include/gpg" true "qubes.Gpg * work vault allow\n"

def gpgRule (action : Action) : Rule :=
  ⟨.name "qubes.Gpg", .any, .literal "work", .literal "vault", action⟩

theorem lines_includingFile : includingFile.lines =
    [⟨"!include-dir include", 1, .includes .directory "include"⟩,
      ⟨"qubes.Gpg * work vault deny", 2, .rule (gpgRule .deny)⟩] := by
  decide +kernel

theorem lines_includedFile : includedFile.lines =
    [⟨"qubes.Gpg * work vault allow", 1, .rule (gpgRule (.grant .allow none []))⟩] := by
  decide +kernel

def policySession (audit : Option AuditLog) (entries : List (String × FileTree)) :
    Workspace Unit where
  sessions _ := ⟨policyStore, audit, true, []⟩
  host := ⟨⟨.directory [("policy", .directory entries)]⟩, ⟨0⟩, []⟩

theorem sparesDirectories_policyStore : policyStore.SparesDirectories := by
  intro directory hdirectory name p hp hcontains
  rcases Store.path_eq_ok hp with ⟨-, base, -, -, rfl⟩ | ⟨-, -, rfl⟩
  · have hlength := hcontains.length_le
    rcases List.mem_pair.mp hdirectory with rfl | rfl <;> simp [policyStore, Path.child] at hlength
  · have hname : name ++ ".policy" ≠ "include" := by
      intro hname
      have hbefore := Text.before?_eq_some_iff.mpr hname.symm
      have hnone : Text.before? ".policy" "include" = none := by decide
      rw [hnone] at hbefore
      cases hbefore
    rcases List.mem_pair.mp hdirectory with rfl | rfl
    · simpa [policyStore, Path.child] using hcontains.length_le
    · simp [policyStore, Path.child, Path.Contains, hname] at hcontains

def storedInclude : List (String × FileTree) :=
  [("include", .directory [("gpg", .file (Text.Utf8.encode "# none yet\n"))])]

def changingEvents : List (Event Unit) :=
  [.command () (.create "30-user" none), .command () (.setText "30-user" includingFile.text),
    .command () (.open "include/gpg" none),
    .command () (.setText "include/gpg" includedFile.text)]

theorem clear_policyStore {now : Instant} :
    (AuditLog.mk "/log/audit" 40).Clear policyStore now := by
  have hpath : ".." ∉ Path.pieces "/log/audit" := by decide
  have hlog : ∀ directory ∈ policyStore.directories,
      (AuditLog.mk "/log/audit" 40).place.Apart directory := by
    decide
  have hfolder : ∀ directory ∈ policyStore.directories,
      (AuditLog.mk "/log/audit" 40).folder.Apart directory := by
    decide
  exact AuditLog.clear_of_outside hpath (AuditLog.outside_of_folder hlog hfolder now)

/-- The include file is saved before the main file; the preview has known of both. -/
theorem preview_once_saved_changing :
    let w := policySession (some ⟨"/log/audit", 40⟩) storedInclude
    w.Fresh policyStore ∧ policyStore.SparesDirectories ∧
    (AuditLog.mk "/log/audit" 40).Clear policyStore (w.run changingEvents).host.now ∧
    policyStore.exists? (w.run changingEvents).host.disk "include/gpg" = .ok true ∧
    ∃ s' host', ((w.run changingEvents).sessions ()).saveAll (w.run changingEvents).host
        ["include/gpg", "30-user"] = some (s', host') ∧
      s'.preview host'.disk gpgRequest =
        ((w.run changingEvents).sessions ()).preview (w.run changingEvents).host.disk gpgRequest := by
  intro w
  have hfresh : w.Fresh policyStore := fun _ => ⟨rfl, rfl⟩
  obtain ⟨hnow, hstored, hsome⟩ : (w.run changingEvents).host.now = ⟨0⟩ ∧
      (∀ name ∈ ["include/gpg", "30-user"], PolicyName.isInclude name = true →
        policyStore.exists? (w.run changingEvents).host.disk name = .ok true) ∧
      (((w.run changingEvents).sessions ()).saveAll (w.run changingEvents).host
        ["include/gpg", "30-user"]).isSome = true := by
    decide +kernel
  have hclear : (AuditLog.mk "/log/audit" 40).Clear policyStore
      (w.run changingEvents).host.now := by
    rw [hnow]
    exact clear_policyStore
  have hclears : ∀ a, (w.sessions ()).audit = some a →
      a.Clear policyStore (w.run changingEvents).host.now := by
    intro a ha
    cases ha
    exact hclear
  obtain ⟨⟨s', host'⟩, hsaved⟩ := Option.isSome_iff_exists.mp hsome
  exact ⟨hfresh, sparesDirectories_policyStore, hclear,
    hstored "include/gpg" List.mem_cons_self (by decide +kernel), s', host', hsaved,
    preview_once_saved hfresh changingEvents () sparesDirectories_policyStore hclears _ hstored hsaved
      gpgRequest⟩

/-! ## a new include file -/

def storedMain : List (String × FileTree) :=
  [("30-user.policy", .file (Text.Utf8.encode includingFile.text))]

def creatingEvents : List (Event Unit) :=
  [.command () (.open "30-user" none), .command () (.create "include/gpg" none),
    .command () (.setText "include/gpg" includedFile.text)]

theorem mainFiles_including {s : Session}
    (h : s.opened.map OpenFile.file = [includingFile, includedFile]) :
    s.mainFiles = [includingFile] := by
  have hnames : s.opened.map (·.file.name) = ["30-user", "include/gpg"] := by
    have hfiles := congrArg (List.map PolicyFile.name) h
    rwa [List.map_map] at hfiles
  have hfiles : s.files = ["30-user", "include/gpg"] := by
    rw [Session.files, hnames]
    exact List.mergeSort_of_pairwise (by decide)
  have hfind (name : String) : (s.find? name).map OpenFile.file =
      [includingFile, includedFile].find? (·.name == name) := by
    rw [← Session.find?_files, h]
  rw [Session.mainFiles, hfiles, List.map_filterMap, funext hfind]
  decide

theorem explain_includingFile {inc : Includes Fault} {fs : List PolicyFile}
    (h : inc.resolve .directory "include" = .ok fs) : explain inc gpgRequest [includingFile] =
      match Evaluation.scanFiles inc gpgRequest ["30-user"] fs with
      | .ok none => .ok (some ⟨gpgRule .deny, 2, "30-user"⟩)
      | found => found := by
  have hcovers : (gpgRule .deny).covers gpgRequest = true := by decide
  have hname : includingFile.name = "30-user" := rfl
  rw [explain, Evaluation.scanFile, hname, lines_includingFile, Evaluation.scanLines_cons,
    Evaluation.scanLine_of_includes rfl h, Evaluation.scanLines_cons, Evaluation.scanLine_of_rule rfl,
    if_pos hcovers]
  cases Evaluation.scanFiles inc gpgRequest ["30-user"] fs with
  | error e => rfl
  | ok found => cases found <;> rfl

theorem scanFiles_includedFile (inc : Includes Fault) :
    Evaluation.scanFiles inc gpgRequest ["30-user"] [includedFile] =
      .ok (some ⟨gpgRule (.grant .allow none []), 1, "include/gpg"⟩) := by
  have hcovers : (gpgRule (.grant .allow none [])).covers gpgRequest = true := by decide
  have hchain : ["30-user"].contains includedFile.name = false := by decide
  rw [Evaluation.scanFiles, hchain, lines_includedFile, Evaluation.scanLines_cons,
    Evaluation.scanLine_of_rule rfl, if_pos hcovers]
  rfl

theorem preview_including {s : Session} {d : Disk} {main included names : List String}
    {fs : List PolicyFile} (hopened : s.opened.map OpenFile.file = [includingFile, includedFile])
    (hstore : s.store = policyStore) (hmain : d.listing policyStore.directory = some main)
    (hincluded : d.listing policyStore.includeDirectory = some included)
    (hnames : Store.includeNames included = names)
    (hall : policyStore.loadAll d [includingFile, includedFile] s.allowIncludes names = .ok fs) :
    s.preview d gpgRequest =
      match Evaluation.scanFiles (policyStore.includes d [includingFile, includedFile]
        s.allowIncludes) gpgRequest ["30-user"] fs with
      | .ok none => .ok (some ⟨gpgRule .deny, 2, "30-user"⟩)
      | found => found := by
  have hinclude : policyStore.isIncludeDirectory "include" = true := by decide
  rw [Session.preview, mainFiles_including hopened, hstore, hopened]
  refine explain_includingFile ?_
  rw [Includes.resolve, Store.directory_includes, if_pos hinclude, Store.filter_list, hmain,
    hincluded]
  simp only
  rw [hnames]
  exact hall

/-- **A new include file is missing from the preview**: the rule of the main file decides, until all
is saved; then the rule of the include file does. -/
theorem preview_misses_creating :
    let w := policySession none storedMain
    let s := (w.run creatingEvents).sessions ()
    ∃ s' host', s.saveAll (w.run creatingEvents).host ["30-user", "include/gpg"] =
        some (s', host') ∧
      s.preview (w.run creatingEvents).host.disk gpgRequest =
        .ok (some ⟨gpgRule .deny, 2, "30-user"⟩) ∧
      s'.preview host'.disk gpgRequest =
        .ok (some ⟨gpgRule (.grant .allow none []), 1, "include/gpg"⟩) := by
  intro w s
  have hbefore : s.opened.map OpenFile.file = [includingFile, includedFile] ∧
      s.store = policyStore ∧
      (w.run creatingEvents).host.disk.listing policyStore.directory = some ["30-user.policy"] ∧
      (w.run creatingEvents).host.disk.listing policyStore.includeDirectory = some [] := by
    decide +kernel
  have hafter : (s.saveAll (w.run creatingEvents).host ["30-user", "include/gpg"]).any
      (fun (s', host') => s'.opened.map OpenFile.file = [includingFile, includedFile] ∧
        s'.store = policyStore ∧
        host'.disk.listing policyStore.directory = some ["30-user.policy"] ∧
        host'.disk.listing policyStore.includeDirectory = some ["gpg"]) = true := by
    decide +kernel
  obtain ⟨hopened, hstore, hmain, hincluded⟩ := hbefore
  obtain ⟨⟨s', host'⟩, hsaved, hafter⟩ := (Option.any_eq_true _ _).mp hafter
  obtain ⟨hopened', hstore', hmain', hincluded'⟩ := of_decide_eq_true hafter
  have hempty : (Text.sort (([] : List String).filter Text.isFileName)).map ("include/" ++ ·) = [] :=
    congrArg _ List.mergeSort_nil
  have hgpg : (Text.sort (["gpg"].filter Text.isFileName)).map ("include/" ++ ·) =
      ["include/gpg"] := by
    have hname : Text.isFileName "gpg" = true := by decide
    rw [List.filter_cons_of_pos hname, List.filter_nil, Text.sort, List.mergeSort_singleton]
    rfl
  refine ⟨s', host', hsaved, ?_, ?_⟩
  · rw [preview_including hopened hstore hmain hincluded hempty rfl]
    rfl
  · have hload : policyStore.loadAll host'.disk [includingFile, includedFile] s'.allowIncludes
        ["include/gpg"] = .ok [includedFile] := rfl
    rw [preview_including hopened' hstore' hmain' hincluded' hgpg hload, scanFiles_includedFile]

end Workspace

end QubePolicy
