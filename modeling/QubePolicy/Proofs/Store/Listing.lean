import QubePolicy.Proofs.Store.Places
import QubePolicy.Proofs.Text.Order
import Mathlib.Data.List.Nodup

/-!
# What is listed and what is there

The names that are listed are those under which a file is stored, as long as no directory has two
entries of one name.

* `Disk.mem_listing_iff`      a directory lists what can be read there;
* `Store.mem_names_iff`       a name is listed exactly if there is a file at its place;
* `Store.before_mainNames`, `before_includeNames`   names are listed in order, each once;
* `Store.exists_loadAll`      stored files are loaded one by one, open ones as they are;
* `Store.list_exact`          all this together.
-/

namespace QubePolicy

/-! ## files in a directory -/

namespace FileTree

variable {entries : List (String × FileTree)} {name : String}

theorem fileNames_sublist (entries : List (String × FileTree)) :
    (fileNames entries).Sublist (entries.map Prod.fst) := by
  induction entries with
  | nil => exact .slnil
  | cons e entries ih =>
    obtain ⟨m, t⟩ := e
    rw [fileNames_cons]
    split
    · exact ih.cons_cons m
    · exact ih.cons m

theorem mem_fileNames_iff (hnodup : (entries.map Prod.fst).Nodup) :
    name ∈ fileNames entries ↔ ∃ bytes, entries.lookup name = some (.file bytes) := by
  induction entries with
  | nil => simp [fileNames]
  | cons e entries ih =>
    obtain ⟨m, t⟩ := e
    obtain ⟨hm, hnodup⟩ := List.nodup_cons.mp hnodup
    rw [fileNames_cons, lookup_cons]
    by_cases hname : name = m
    · subst hname
      have hnot : name ∉ fileNames entries := fun h => hm ((fileNames_sublist entries).subset h)
      cases t <;> simp [contents, hnot]
    · rw [if_neg hname, ← ih hnodup]
      split <;> simp [hname]

end FileTree

namespace Disk

variable {d : Disk} {p : Path} {name : String} {files : List String}
  {entries : List (String × FileTree)}

theorem bytes?_child (h : d.find p = .ok (.directory entries)) (name : String) :
    d.bytes? (p.child name) = (entries.lookup name).bind FileTree.contents := by
  rw [bytes?, look, Path.child, FileTree.look_append, show d.root.find p.names = _ from h]
  show ((FileTree.directory entries).look [name]).join = _
  rw [FileTree.look_directory_cons]
  cases entries.lookup name <;> rfl

theorem bytes?_child_of_error {e : SystemFault} (h : d.find p = .error e) (name : String) :
    d.bytes? (p.child name) = none := by
  rw [bytes?, look, Path.child, FileTree.look_append, show d.root.find p.names = _ from h]
  rfl

theorem exists_listing (h : d.bytes? p = none) : ∃ files, d.listing p = some files := by
  unfold listing FileTree.listing
  cases hfind : d.root.find p.names with
  | error e => exact ⟨[], rfl⟩
  | ok tree =>
    cases tree with
    | directory entries => exact ⟨_, rfl⟩
    | file bytes =>
      rw [bytes?, look_of_find hfind] at h
      cases h

/-- **A directory lists the files that can be read there.** -/
theorem mem_listing_iff (hnodup : (d.entryNames p).Nodup) (h : d.listing p = some files) :
    name ∈ files ↔ (d.bytes? (p.child name)).isSome = true := by
  unfold listing FileTree.listing at h
  unfold entryNames at hnodup
  cases hfind : d.find p with
  | error e =>
    rw [show d.root.find p.names = _ from hfind] at h
    cases h
    rw [bytes?_child_of_error hfind]
    simp
  | ok tree =>
    rw [show d.root.find p.names = _ from hfind] at h
    rw [hfind] at hnodup
    cases tree with
    | file bytes => cases h
    | directory entries =>
      cases h
      rw [FileTree.mem_fileNames_iff hnodup, bytes?_child hfind]
      constructor
      · rintro ⟨bytes, hbytes⟩
        rw [hbytes]
        rfl
      · intro hsome
        obtain ⟨bytes, hbytes⟩ := Option.isSome_iff_exists.mp hsome
        obtain ⟨tree, htree, hcontents⟩ := Option.bind_eq_some_iff.mp hbytes
        cases tree with
        | file bytes => exact ⟨bytes, htree⟩
        | directory entries => cases hcontents

theorem nodup_listing (hnodup : (d.entryNames p).Nodup) (h : d.listing p = some files) :
    files.Nodup := by
  unfold listing FileTree.listing at h
  unfold entryNames find at hnodup
  split at h
  · cases h
    exact .nil
  · cases h
  · next entries hfind =>
    cases h
    rw [hfind] at hnodup
    exact hnodup.sublist (FileTree.fileNames_sublist entries)

end Disk

namespace Store

variable {s : Store} {d : Disk} {name : String} {main included files : List String}
  {opened : List PolicyFile} {allowIncludes : Bool}

/-! ## names that are listed -/

/-- **A name is listed exactly if there is a file at its place.** -/
theorem mem_names_iff (hnodup : ∀ p ∈ s.directories, (d.entryNames p).Nodup)
    (hmain : d.listing s.directory = some main)
    (hincluded : d.listing s.includeDirectory = some included) :
    name ∈ mainNames main ++ includeNames included ↔
      ∃ p, s.Placed name p ∧ (d.bytes? p).isSome = true := by
  have hmainFiles {file : String} :
      file ∈ main ↔ (d.bytes? (s.directory.child file)).isSome = true :=
    Disk.mem_listing_iff (hnodup _ s.directory_mem) hmain
  have hincludedFiles {file : String} :
      file ∈ included ↔ (d.bytes? (s.includeDirectory.child file)).isSome = true :=
    Disk.mem_listing_iff (hnodup _ s.includeDirectory_mem) hincluded
  rw [List.mem_append, mem_mainNames, mem_includeNames]
  constructor
  · rintro (⟨hname, hfile⟩ | ⟨base, hbase, hfile, rfl⟩)
    · exact ⟨_, .main hname, hmainFiles.mp hfile⟩
    · exact ⟨_, .included hbase, hincludedFiles.mp hfile⟩
  · rintro ⟨p, hp, hfile⟩
    cases hp with
    | main hname => exact .inl ⟨hname, hmainFiles.mpr hfile⟩
    | included hbase => exact .inr ⟨_, hbase, hincludedFiles.mpr hfile, rfl⟩

theorem before_mainNames (h : files.Nodup) :
    (mainNames files).Pairwise fun a b => Text.before a b = true := by
  refine Text.pairwise_before_sort ((List.Nodup.filterMap (fun a b stem ha hb => ?_) h).filter _)
  rw [Text.before?_eq_some_iff.mp ha, Text.before?_eq_some_iff.mp hb]

theorem before_includeNames (h : files.Nodup) :
    (includeNames files).Pairwise fun a b => Text.before a b = true :=
  (Text.pairwise_before_sort (h.filter _)).map _ fun _ _ => Text.before_append "include/"

/-! ## files that are loaded -/

/-- A file is the open one of its name or, if none is open, the stored one. -/
def IsCurrent (s : Store) (d : Disk) (opened : List PolicyFile) (allowIncludes : Bool)
    (f : PolicyFile) : Prop :=
  opened.find? (·.name == f.name) = some f ∨ opened.find? (·.name == f.name) = none ∧
    ∃ text, s.get d f.name = .ok (text, .ofText text) ∧ f = .ofText f.name allowIncludes text

theorem exists_load (htext : (s.textOf? d name).isSome = true) :
    ∃ f, s.load d opened allowIncludes name = .ok (some f) ∧ f.name = name ∧
      s.IsCurrent d opened allowIncludes f := by
  cases hfind : opened.find? (·.name == name) with
  | some f =>
    obtain rfl : f.name = name := by simpa using List.find?_some hfind
    exact ⟨f, by rw [load, hfind], rfl, .inl hfind⟩
  | none =>
    obtain ⟨text, htext⟩ := Option.isSome_iff_exists.mp htext
    exact ⟨_, load_of_textOf? hfind htext, rfl, .inr ⟨hfind, text, get_eq_ok_iff.mpr ⟨htext, rfl⟩,
      rfl⟩⟩

/-- **Stored files are loaded one by one**, in the order of their names. -/
theorem exists_loadAll {names : List String}
    (htext : ∀ name ∈ names, (s.textOf? d name).isSome = true) :
    ∃ fs, s.loadAll d opened allowIncludes names = .ok fs ∧ fs.map PolicyFile.name = names ∧
      ∀ f ∈ fs, s.IsCurrent d opened allowIncludes f := by
  induction names with
  | nil => exact ⟨[], rfl, rfl, fun f hf => absurd hf List.not_mem_nil⟩
  | cons name names ih =>
    obtain ⟨fs, hfs, hnames, hcurrent⟩ := ih fun n hn => htext n (List.mem_cons_of_mem name hn)
    obtain ⟨f, hf, hname, hfcurrent⟩ := exists_load (htext name List.mem_cons_self)
    refine ⟨f :: fs, by rw [loadAll_cons, hf, hfs]; rfl, by rw [List.map_cons, hname, hnames], ?_⟩
    intro g hg
    rcases List.mem_cons.mp hg with rfl | hg
    · exact hfcurrent
    · exact hcurrent g hg

/-! ## listing -/

theorem isSome_textOf?_iff :
    (s.textOf? d name).isSome = true ↔ ∃ p, s.Placed name p ∧ (d.bytes? p).isSome = true := by
  rw [Option.isSome_iff_exists]
  simp only [textOf?_eq_some_iff, Disk.readText_eq_ok_iff, path_eq_ok_iff,
    Option.isSome_iff_exists]
  constructor
  · rintro ⟨text, p, hp, bytes, hbytes, -⟩
    exact ⟨p, hp, bytes, hbytes⟩
  · rintro ⟨p, hp, bytes, hbytes⟩
    exact ⟨_, p, hp, bytes, hbytes, rfl⟩

/-- **What is listed is what is there.** Let each directory of a store be a directory or missing, with
no two entries of one name, as file systems keep it; the directories may be one, or inside each
other, or apart. Then the listing is of the main files and behind them the include files, each group
in order and each name once. It has exactly the names of policy files that there is a file for; so
each of them is found and can be read, and the include directory leads to the files of exactly the
include names that are listed, in their order: the open one of each name if there is one, else the
stored one. -/
theorem list_exact (s : Store) (d : Disk) (hdirectories : ∀ p ∈ s.directories, d.bytes? p = none)
    (hnodup : ∀ p ∈ s.directories, (d.entryNames p).Nodup) :
    ∃ mains includes, s.list d = .ok (mains ++ includes) ∧
      (∀ name, name ∈ mains ++ includes ↔ PolicyName.isValid name = true ∧
        ∃ p, s.path name = .ok p ∧ (d.bytes? p).isSome = true) ∧
      (mains ++ includes).Nodup ∧
      (∀ name ∈ mains, PolicyName.isInclude name = false) ∧
      (∀ name ∈ includes, PolicyName.isInclude name = true) ∧
      mains.Pairwise (fun a b => Text.before a b = true) ∧
      includes.Pairwise (fun a b => Text.before a b = true) ∧
      (∀ name ∈ mains ++ includes, s.exists? d name = .ok true ∧
        ∃ text, s.get d name = .ok (text, .ofText text)) ∧
      ∀ opened allowIncludes path, s.isIncludeDirectory path = true →
        ∃ fs, (s.includes d opened allowIncludes).resolve .directory path = .ok fs ∧
          fs.map PolicyFile.name = includes ∧ ∀ f ∈ fs, s.IsCurrent d opened allowIncludes f := by
  obtain ⟨main, hmain⟩ := Disk.exists_listing (hdirectories _ s.directory_mem)
  obtain ⟨included, hincluded⟩ := Disk.exists_listing (hdirectories _ s.includeDirectory_mem)
  have hmem {name : String} : name ∈ mainNames main ++ includeNames included ↔
      ∃ p, s.Placed name p ∧ (d.bytes? p).isSome = true := mem_names_iff hnodup hmain hincluded
  have hmains := before_mainNames (Disk.nodup_listing (hnodup _ s.directory_mem) hmain)
  have hincludes := before_includeNames
    (Disk.nodup_listing (hnodup _ s.includeDirectory_mem) hincluded)
  refine ⟨mainNames main, includeNames included, by rw [list_eq, hmain, hincluded],
    fun name => ?_, ?_, fun _ => not_isInclude_of_mem, fun _ => isInclude_of_mem, hmains, hincludes,
    fun name hname => ?_, fun opened allowIncludes path hpath => ?_⟩
  · simp only [hmem, path_eq_ok_iff]
    constructor
    · rintro ⟨p, hp, hfile⟩
      exact ⟨isValid_of_path (path_eq_ok_iff.mpr hp), p, hp, hfile⟩
    · exact fun h => h.2
  · refine List.nodup_append.mpr ⟨hmains.imp Text.ne_of_before, hincludes.imp Text.ne_of_before, ?_⟩
    rintro a ha b hb rfl
    have hmixed := isInclude_of_mem hb
    rw [not_isInclude_of_mem ha] at hmixed
    cases hmixed
  · obtain ⟨text, htext⟩ := Option.isSome_iff_exists.mp (isSome_textOf?_iff.mpr (hmem.mp hname))
    obtain ⟨p, hp, hread⟩ := textOf?_eq_some_iff.mp htext
    exact ⟨exists?_eq_ok_iff.mpr ⟨p, hp, exists_of_readText hread⟩, text,
      get_eq_ok_iff.mpr ⟨htext, rfl⟩⟩
  · rw [Includes.resolve, directory_includes, if_pos hpath, filter_list, hmain, hincluded]
    exact exists_loadAll fun name hname =>
      isSome_textOf?_iff.mpr (hmem.mp (List.mem_append_right _ hname))

def crowdedDisk : Disk :=
  ⟨.directory [("etc", .directory [("policy", .directory [("40-work.policy", .file []),
    ("note.txt", .file []), ("30-user.policy", .file []), ("old.policy", .directory []),
    ("include", .directory [("gpg", .file []), ("web.policy", .file []),
      ("sub", .directory [])])])])]⟩

theorem list_exact_nested : (∀ p ∈ nested.directories, crowdedDisk.bytes? p = none) ∧
    (∀ p ∈ nested.directories, (crowdedDisk.entryNames p).Nodup) ∧
    ∃ names, nested.list crowdedDisk = .ok names ∧ names.Nodup ∧ "30-user" ∈ names ∧
      "include/gpg" ∈ names ∧ "old" ∉ names ∧ "include/web.policy" ∉ names := by
  have hdirectories : ∀ p ∈ nested.directories, crowdedDisk.bytes? p = none := by decide +kernel
  have hnodup : ∀ p ∈ nested.directories, (crowdedDisk.entryNames p).Nodup := by decide +kernel
  obtain ⟨mains, includes, hlist, hmem, hnames, -⟩ :=
    list_exact nested crowdedDisk hdirectories hnodup
  have huser := (hmem "30-user").mpr ⟨by decide, _, rfl, by decide +kernel⟩
  have hgpg := (hmem "include/gpg").mpr ⟨by decide, _, rfl, by decide +kernel⟩
  refine ⟨hdirectories, hnodup, _, hlist, hnames, huser, hgpg, fun hold => ?_, fun hweb => ?_⟩
  · obtain ⟨-, p, hp, hfile⟩ := (hmem _).mp hold
    cases hp
    exact absurd hfile (by decide +kernel)
  · exact absurd ((hmem _).mp hweb).1 (by decide)

end Store

end QubePolicy
