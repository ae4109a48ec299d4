import QubePolicy.Proofs.CommandLine.Evaluate
import QubePolicy.Proofs.Store.Listing
import Mathlib.Data.List.Pairwise

/-!
# The order of main files

The first rule that covers a request decides it, so the order of the files matters.  The command
line and the preview scan main files in the order of their names; on disk, each of these has the
extension behind it.

* `Text.Continues`            a name that goes on from another one with a hyphen, which stands
                              before the dot of the extension;
* `Text.pairwise_extended_iff`   without such names, order by name is order by the name on disk;
* `Session.invariant_named`   a session holds files of valid names only;
* `PolicyFile.InNameOrder`    files in the order of their names, and what this says of the disk;
* `Workspace.main_files_in_name_order`   the main files that decide are in this order;
* `Workspace.hyphen_comes_late`   so a file that is first on disk can come second.
-/

namespace QubePolicy

/-! ## names with an extension -/

namespace Text

variable {a b : String} {as bs : List Char} {names : List String}

theorem unitsOf_of_isWordChar {c : Char} (h : isWordChar c = true) :
    unitsOf c = [c.toNat] ∧ (c = '-' ∨ '.'.toNat < c.toNat) := by
  delta isWordChar Char.isAlphanum Char.isAlpha Char.isUpper Char.isLower Char.isDigit at h
  simp only [Bool.or_eq_true, Bool.and_eq_true, decide_eq_true_eq, beq_iff_eq] at h
  have hnarrow : c = '-' ∨ ('.'.toNat < c.toNat ∧ c.toNat < 0x10000) := by
    rcases h with (((h | h) | h) | rfl) | rfl
    · exact .inr ⟨lt_of_lt_of_le (by decide) h.1, lt_of_le_of_lt h.2 (by decide)⟩
    · exact .inr ⟨lt_of_lt_of_le (by decide) h.1, lt_of_le_of_lt h.2 (by decide)⟩
    · exact .inr ⟨lt_of_lt_of_le (by decide) h.1, lt_of_le_of_lt h.2 (by decide)⟩
    · exact .inr ⟨by decide, by decide⟩
    · exact .inl rfl
  rcases hnarrow with rfl | ⟨hdot, hwide⟩
  · exact ⟨rfl, .inl rfl⟩
  · exact ⟨if_pos hwide, .inr hdot⟩

/-- Of two texts of such characters the first one in order stays first with a dot behind both,
unless the second one goes on from it with a hyphen. -/
theorem lt_extended_iff (has : ∀ c ∈ as, isWordChar c = true) (hbs : ∀ c ∈ bs, isWordChar c = true)
    (hlt : as.flatMap unitsOf < bs.flatMap unitsOf) (tail : List Nat) :
    as.flatMap unitsOf ++ '.'.toNat :: tail < bs.flatMap unitsOf ++ '.'.toNat :: tail ↔
      ¬(as ++ ['-']) <+: bs := by
  induction as generalizing bs with
  | nil =>
    cases bs with
    | nil => exact absurd hlt (lt_irrefl _)
    | cons c bs =>
      obtain ⟨hunits, hc⟩ := unitsOf_of_isWordChar (hbs c List.mem_cons_self)
      rw [List.flatMap_cons, hunits]
      show '.'.toNat :: tail < c.toNat :: (bs.flatMap unitsOf ++ '.'.toNat :: tail) ↔
        ¬['-'] <+: c :: bs
      rw [List.cons_lt_cons_iff, List.cons_prefix_cons]
      rcases hc with rfl | hc
      · simp
      · have hne : '-' ≠ c := by
          rintro rfl
          exact absurd hc (by decide)
        simp only [hne, false_and, not_false_eq_true, iff_true]
        exact .inl hc
  | cons x as ih =>
    cases bs with
    | nil => exact absurd hlt (List.not_lt_nil _)
    | cons y bs =>
      obtain ⟨hx, -⟩ := unitsOf_of_isWordChar (has x List.mem_cons_self)
      obtain ⟨hy, -⟩ := unitsOf_of_isWordChar (hbs y List.mem_cons_self)
      rw [List.flatMap_cons, List.flatMap_cons, hx, hy] at hlt ⊢
      rw [List.singleton_append, List.singleton_append, List.cons_lt_cons_iff] at hlt
      rw [List.singleton_append, List.singleton_append, List.cons_append, List.cons_append,
        List.cons_lt_cons_iff, List.cons_append, List.cons_prefix_cons]
      rcases hlt with hlt | ⟨hxy, hlt⟩
      · have hne : ¬x = y := by
          rintro rfl
          exact lt_irrefl _ hlt
        simp [hlt, hne]
      · obtain rfl : x = y := Char.toNat_inj.mp hxy
        rw [ih (fun c hc => has c (List.mem_cons_of_mem x hc))
          (fun c hc => hbs c (List.mem_cons_of_mem x hc)) hlt]
        simp

def Continues (a b : String) : Prop := ∃ rest, b = a ++ "-" ++ rest

theorem continues_iff : Continues a b ↔ (a.toList ++ ['-']) <+: b.toList := by
  constructor
  · rintro ⟨rest, rfl⟩
    exact ⟨rest.toList, by simp⟩
  · rintro ⟨rest, hrest⟩
    exact ⟨String.ofList rest, String.toList_injective (by simp [← hrest])⟩

theorem isWordChar_of_mem (h : isFileName a = true) {c : Char} (hc : c ∈ a.toList) :
    isWordChar c = true := by
  rw [isFileName, isRunOf, Bool.and_eq_true, List.all_eq_true] at h
  exact h.2 c hc

/-- **Of two file names the first one in order stays first with the extension behind both**, unless
the second one continues it. -/
theorem before_extended_iff (ha : isFileName a = true) (hb : isFileName b = true)
    (h : before a b = true) :
    before (a ++ ".policy") (b ++ ".policy") = true ↔ ¬Continues a b := by
  rw [before_iff, unitList_append, unitList_append, continues_iff]
  exact lt_extended_iff (fun c => isWordChar_of_mem ha) (fun c => isWordChar_of_mem hb)
    (before_iff.mp h) _

theorem before_of_continues (h : Continues a b) : before a b = true := by
  obtain ⟨rest, rfl⟩ := h
  have hnil : before "" ("-" ++ rest) = true := by
    rw [before_iff, unitList_append]
    exact List.nil_lt_cons _ _
  have hlead := before_append a hnil
  rwa [String.append_empty, ← String.append_assoc] at hlead

/-- **File names in order stay in order with the extension behind all of them** exactly if none of
them continues another one. -/
theorem pairwise_extended_iff (hnames : ∀ a ∈ names, isFileName a = true)
    (h : names.Pairwise fun a b => before a b = true) :
    (names.map (· ++ ".policy")).Pairwise (fun a b => before a b = true) ↔
      ∀ a ∈ names, ∀ b ∈ names, ¬Continues a b := by
  rw [List.pairwise_map]
  constructor
  · intro hextended
    have hapart : names.Pairwise fun a b => ¬Continues a b ∧ ¬Continues b a :=
      (h.and hextended).imp_of_mem fun {a b} ha hb hab =>
        ⟨(before_extended_iff (hnames a ha) (hnames b hb) hab.1).mp hab.2, fun hba =>
          lt_asymm (before_iff.mp hab.1) (before_iff.mp (before_of_continues hba))⟩
    have : Std.Symm fun a b => ¬Continues a b ∧ ¬Continues b a := ⟨fun _ _ => And.symm⟩
    have hself (a : String) : ¬Continues a a :=
      fun haa => ne_of_before (before_of_continues haa) rfl
    intro a ha b hb
    exact ((hapart.forall_of_forall (fun a _ => ⟨hself a, hself a⟩)) ha hb).1
  · intro hnone
    exact h.imp_of_mem fun {a b} ha hb hab =>
      (before_extended_iff (hnames a ha) (hnames b hb) hab).mpr (hnone a ha b hb)

end Text

/-! ## files in order -/

theorem PolicyName.isFileName_of_isValid {name : String} (h : isValid name = true)
    (hmain : isInclude name = false) : Text.isFileName name = true := by
  rw [isInclude, Option.isSome_eq_false_iff, Option.isNone_iff_eq_none] at hmain
  rwa [isValid, base, hmain] at h

/-- Files in the order of their names. It is the order of their names on disk exactly if no name
continues another one. -/
structure PolicyFile.InNameOrder (files : List PolicyFile) : Prop where
  names : (files.map PolicyFile.name).Pairwise fun a b => Text.before a b = true
  onDisk : (files.map fun f => f.name ++ ".policy").Pairwise (fun a b => Text.before a b = true) ↔
    ∀ f ∈ files, ∀ g ∈ files, ¬Text.Continues f.name g.name

theorem PolicyFile.inNameOrder {files : List PolicyFile}
    (hnames : ∀ f ∈ files, Text.isFileName f.name = true)
    (h : (files.map PolicyFile.name).Pairwise fun a b => Text.before a b = true) :
    InNameOrder files where
  names := h
  onDisk := by
    have hextended := Text.pairwise_extended_iff (List.forall_mem_map.mpr hnames) h
    rw [List.map_map] at hextended
    rw [show (fun f : PolicyFile => f.name ++ ".policy") = (· ++ ".policy") ∘ name from rfl,
      hextended, List.forall_mem_map]
    exact forall₂_congr fun f _ => List.forall_mem_map

namespace CommandLine

variable {s : Store} {d : Disk}

/-- **The command line scans the stored main files in the order of their names.** -/
theorem exists_mainFiles (hdirectories : ∀ p ∈ s.directories, d.bytes? p = none)
    (hnodup : ∀ p ∈ s.directories, (d.entryNames p).Nodup) :
    ∃ files, mainFiles s d = .ok files ∧ PolicyFile.InNameOrder files ∧
      ∀ name, name ∈ files.map PolicyFile.name ↔ Text.isFileName name = true ∧
        (d.bytes? (s.directory.child (name ++ ".policy"))).isSome = true := by
  obtain ⟨main, hmain⟩ := Disk.exists_listing (hdirectories _ s.directory_mem)
  obtain ⟨included, hincluded⟩ := Disk.exists_listing (hdirectories _ s.includeDirectory_mem)
  have hmem (name : String) : name ∈ Store.mainNames main ↔ Text.isFileName name = true ∧
      (d.bytes? (s.directory.child (name ++ ".policy"))).isSome = true := by
    rw [Store.mem_mainNames, Disk.mem_listing_iff (hnodup _ s.directory_mem) hmain]
  have hstored : ∀ name ∈ Store.mainNames main, (s.textOf? d name).isSome = true := by
    intro name hname
    obtain ⟨hword, hbytes⟩ := (hmem name).mp hname
    exact Store.isSome_textOf?_iff.mpr ⟨_, .main hword, hbytes⟩
  have hnames : ((Store.mainNames main).map (s.stored d)).map PolicyFile.name =
      Store.mainNames main := by
    rw [List.map_map]
    exact List.map_id _
  refine ⟨(Store.mainNames main).map (s.stored d), ?_, PolicyFile.inNameOrder ?_ ?_, ?_⟩
  · rw [mainFiles, Store.list_eq, hmain, hincluded]
    show loadFiles s d ((Store.mainNames main ++ Store.includeNames included).filter _) = _
    rw [Store.filter_not_isInclude]
    exact loadFiles_eq_ok hstored
  · exact List.forall_mem_map.mpr fun name hname => ((hmem name).mp hname).1
  · rw [hnames]
    exact Store.before_mainNames (Disk.nodup_listing (hnodup _ s.directory_mem) hmain)
  · rw [hnames]
    exact hmem

end CommandLine

namespace Session

variable {s : Session} {d : Disk} {name : String} {o : OpenFile}

def Named (s : Session) : Prop :=
  ∀ name o, s.find? name = some o → PolicyName.isValid name = true

theorem Named.put (h : s.Named) (ho : PolicyName.isValid o.file.name = true) : (s.put o).Named := by
  intro name o' hfind
  rw [find?_put] at hfind
  split at hfind
  · next hname => rwa [hname]
  · exact h name o' hfind

theorem isValid_of_loaded {allowIncludes : Bool} (h : s.loaded d name allowIncludes = .ok o) :
    PolicyName.isValid o.file.name = true := by
  obtain ⟨text, htext, rfl⟩ := loaded_eq_ok_iff.mp h
  obtain ⟨p, hp, -⟩ := Store.textOf?_eq_some_iff.mp htext
  exact Store.isValid_of_path hp

/-- **Only files of valid names are opened or created.** -/
theorem invariant_named : Invariant Named where
  save h hsave := by
    obtain ⟨o, p, written, ho, -, -, -, -, rfl, -⟩ := save_eq_ok hsave
    exact h.put (by rw [name_of_find? ho]; exact h _ o ho)
  effect h heffect := by
    cases heffect with
    | asked | held => exact h
    | opened hnone ho => exact h.put (isValid_of_loaded ho)
    | created hnone hfree =>
      obtain ⟨p, hp, -⟩ := Store.exists?_eq_ok_iff.mp hfree
      exact h.put (Store.isValid_of_path hp)
    | closed ho =>
      intro name o hfind
      rw [find?_remove] at hfind
      split at hfind
      · cases hfind
      · exact h name o hfind
    | emptied ho => exact h.put (h _ _ ho)
    | reloaded ho hnew ho' => exact h.put (isValid_of_loaded ho')
    | edited hc ho hkeeps =>
      refine h.put ?_
      rw [show _ = _ from hkeeps.name, name_of_find? ho]
      exact h _ _ ho

/-- **The preview scans the open main files in the order of their names.** -/
theorem inNameOrder_mainFiles (hnamed : s.Named) (hdistinct : s.Distinct) :
    PolicyFile.InNameOrder s.mainFiles ∧ ∀ name, name ∈ s.mainFiles.map PolicyFile.name ↔
      (s.find? name).isSome = true ∧ PolicyName.isInclude name = false := by
  have hmem (name : String) : name ∈ s.files.filter (fun n => !PolicyName.isInclude n) ↔
      (s.find? name).isSome = true ∧ PolicyName.isInclude name = false := by
    rw [List.mem_filter, ← isSome_find?_iff, Bool.not_eq_true']
  have hheld : ∀ name ∈ s.files.filter (fun n => !PolicyName.isInclude n),
      (PolicyFile.name ∘ s.held) name = id name := by
    intro name hname
    obtain ⟨o, ho⟩ := Option.isSome_iff_exists.mp ((hmem name).mp hname).1
    rw [Function.comp_apply, held, ho]
    exact name_of_find? ho
  have hnames : s.mainFiles.map PolicyFile.name =
      s.files.filter fun n => !PolicyName.isInclude n := by
    rw [mainFiles_eq, List.map_map]
    exact (List.map_congr_left hheld).trans (List.map_id _)
  refine ⟨PolicyFile.inNameOrder (fun f hf => ?_) ?_, ?_⟩
  · have hname : f.name ∈ s.mainFiles.map PolicyFile.name := List.mem_map_of_mem hf
    rw [hnames] at hname
    obtain ⟨hopen, hmain⟩ := (hmem _).mp hname
    obtain ⟨o, ho⟩ := Option.isSome_iff_exists.mp hopen
    exact PolicyName.isFileName_of_isValid (hnamed _ o ho) hmain
  · rw [hnames]
    exact (Text.pairwise_before_sort hdistinct).filter _
  · rw [hnames]
    exact hmem

end Session

namespace Workspace

variable {ι : Type} [DecidableEq ι] {store : Store}

/-- **Main files decide in the order of their names**: on the command line, where each directory of
the store is a directory or missing and has no two entries of one name, these are the stored ones;
in the preview, the open ones. Both orders are those of the names on disk, the extension behind each
of them, exactly if among the files no name continues another one with a hyphen. -/
theorem main_files_in_name_order {w : Workspace ι} (hw : w.Fresh store) (es : List (Event ι))
    (i : ι) (hdirectories : ∀ p ∈ store.directories, (w.run es).host.disk.bytes? p = none)
    (hnodup : ∀ p ∈ store.directories, ((w.run es).host.disk.entryNames p).Nodup) :
    (∃ files, CommandLine.mainFiles store (w.run es).host.disk = .ok files ∧
      PolicyFile.InNameOrder files ∧ ∀ name, name ∈ files.map PolicyFile.name ↔
        Text.isFileName name = true ∧ ((w.run es).host.disk.bytes?
          (store.directory.child (name ++ ".policy"))).isSome = true) ∧
    PolicyFile.InNameOrder ((w.run es).sessions i).mainFiles ∧
    ∀ name, name ∈ ((w.run es).sessions i).mainFiles.map PolicyFile.name ↔
      (((w.run es).sessions i).find? name).isSome = true ∧ PolicyName.isInclude name = false := by
  have hnamed : ((w.run es).sessions i).Named := by
    refine holds_after_run Session.invariant_named (fun name o ho => ?_) es
    rw [Session.find?, (hw i).2] at ho
    cases ho
  have hdistinct : ((w.run es).sessions i).Distinct := by
    refine holds_after_run Session.invariant_distinct ?_ es
    rw [Session.Distinct, Session.names, (hw i).2]
    exact List.nodup_nil
  exact ⟨CommandLine.exists_mainFiles hdirectories hnodup,
    Session.inNameOrder_mainFiles hnamed hdistinct⟩

/-! ## a name that continues another one -/

/-- Two files that decide differently; the name of the second one continues that of the first. -/
def continuedEntries : List (String × FileTree) :=
  [("30.policy", .file (Text.Utf8.encode "qubes.Gpg * work vault deny\n")),
    ("30-user.policy", .file (Text.Utf8.encode "qubes.Gpg * work vault allow\n"))]

def continuedEvents : List (Event Unit) :=
  [.command () (.open "30-user" none), .command () (.open "30" none)]

theorem main_files_in_name_order_continued :
    let w := policySession none continuedEntries
    w.Fresh policyStore ∧
    (∀ p ∈ policyStore.directories, (w.run continuedEvents).host.disk.bytes? p = none) ∧
    (∀ p ∈ policyStore.directories, ((w.run continuedEvents).host.disk.entryNames p).Nodup) ∧
    (∃ files, CommandLine.mainFiles policyStore (w.run continuedEvents).host.disk = .ok files ∧
      PolicyFile.InNameOrder files ∧ "30" ∈ files.map PolicyFile.name ∧
      "30-user" ∈ files.map PolicyFile.name) ∧
    PolicyFile.InNameOrder ((w.run continuedEvents).sessions ()).mainFiles ∧
    "30" ∈ ((w.run continuedEvents).sessions ()).mainFiles.map PolicyFile.name := by
  intro w
  have hfresh : w.Fresh policyStore := fun _ => ⟨rfl, rfl⟩
  have hdirectories : ∀ p ∈ policyStore.directories,
      (w.run continuedEvents).host.disk.bytes? p = none := by
    decide +kernel
  have hnodup : ∀ p ∈ policyStore.directories,
      ((w.run continuedEvents).host.disk.entryNames p).Nodup := by
    decide +kernel
  obtain ⟨⟨files, hfiles, horder, hstored⟩, hopenOrder, hopen⟩ :=
    main_files_in_name_order hfresh continuedEvents () hdirectories hnodup
  exact ⟨hfresh, hdirectories, hnodup,
    ⟨files, hfiles, horder, (hstored "30").mpr (by decide +kernel),
      (hstored "30-user").mpr (by decide +kernel)⟩,
    hopenOrder, (hopen "30").mpr (by decide +kernel)⟩

def continuedFiles : List PolicyFile :=
  [.ofText "30" true "qubes.Gpg * work vault deny\n",
    .ofText "30-user" true "qubes.Gpg * work vault allow\n"]

theorem sort_continued {names : List String} (h : names.Perm ["30", "30-user"]) :
    Text.sort names = ["30", "30-user"] :=
  (Text.sort_eq_of_perm h).trans (List.mergeSort_of_pairwise (by decide))

/-- **A name that continues another one comes late**: its file is the first one on disk and the
second one that is scanned, on the command line and in the preview. So a call that the first file on
disk allows is denied. -/
theorem hyphen_comes_late :
    let w := (policySession none continuedEntries).run continuedEvents
    let inc := policyStore.includes w.host.disk [] true
    Text.before "30-user.policy" "30.policy" = true ∧
    CommandLine.mainFiles policyStore w.host.disk = .ok continuedFiles ∧
    (w.sessions ()).mainFiles = continuedFiles ∧
    continuedFiles.map PolicyFile.name = ["30", "30-user"] ∧
    explain inc gpgRequest continuedFiles = .ok (some ⟨gpgRule .deny, 1, "30"⟩) ∧
    explain inc gpgRequest continuedFiles.reverse =
      .ok (some ⟨gpgRule (.grant .allow none []), 1, "30-user"⟩) := by
  intro w inc
  obtain ⟨hmain, hincluded, hnames, hheld⟩ :
      w.host.disk.listing policyStore.directory = some ["30.policy", "30-user.policy"] ∧
      w.host.disk.listing policyStore.includeDirectory = some [] ∧
      (w.sessions ()).opened.map (·.file.name) = ["30-user", "30"] ∧
      (["30", "30-user"].filter fun n => !PolicyName.isInclude n).map (w.sessions ()).held =
        continuedFiles := by
    decide +kernel
  have hstems : (["30.policy", "30-user.policy"].filterMap (Text.before? ".policy")).filter
      Text.isFileName = ["30", "30-user"] := by
    decide
  have hfiles : CommandLine.loadFiles policyStore w.host.disk ["30", "30-user"] =
      .ok continuedFiles := by
    rfl
  obtain ⟨hdeny, hallow⟩ : (gpgRule .deny).covers gpgRequest = true ∧
      (gpgRule (.grant .allow none [])).covers gpgRequest = true := by
    decide
  have hdenying : (PolicyFile.ofText "30" true "qubes.Gpg * work vault deny\n").lines =
      [⟨"qubes.Gpg * work vault deny", 1, .rule (gpgRule .deny)⟩] := by
    decide +kernel
  have hallowing : (PolicyFile.ofText "30-user" true "qubes.Gpg * work vault allow\n").lines =
      [⟨"qubes.Gpg * work vault allow", 1, .rule (gpgRule (.grant .allow none []))⟩] := by
    decide +kernel
  refine ⟨by decide, ?_, ?_, rfl, ?_, ?_⟩
  · rw [CommandLine.mainFiles, Store.list_eq, hmain, hincluded]
    show CommandLine.loadFiles policyStore w.host.disk
      ((Store.mainNames _ ++ Store.includeNames _).filter _) = _
    rw [Store.filter_not_isInclude, Store.mainNames, hstems, sort_continued (.refl _), hfiles]
  · rw [Session.mainFiles_eq, Session.files, hnames, sort_continued (List.Perm.swap _ _ _), hheld]
  · rw [continuedFiles, explain, Evaluation.scanFile, hdenying,
      Evaluation.scanLines_cons_of_covers rfl hdeny]
    rfl
  · rw [continuedFiles, List.reverse_cons, List.reverse_singleton, List.singleton_append, explain,
      Evaluation.scanFile, hallowing, Evaluation.scanLines_cons_of_covers rfl hallow]
    rfl

end Workspace

end QubePolicy
