import QubePolicy.Proofs.Store.Writing
import QubePolicy.Store.Includes

/-!
# Include lines on two disks

* `Store.mainNames`, `includeNames`, `list_eq`   the names that are listed, given the files in the two
                             directories;
* `Store.ListsAlike`         two disks have the same include files to list;
* `Store.filter_list_congr`  then the files behind the include directory have the same names;
* `Store.load_of_textOf?`, `loadAll_cons`   a stored file, and files one after another, are loaded;
* `Store.load_congr`         a file that is not open is loaded by what is at its place;
* `Store.resolve_congr`      include lines are answered alike if the two disks list alike and agree
                             on the files that are not open;
* `Store.listsAlike_writeAt` writing a stored file, or a main file, leaves the include files that are
                             listed.
-/

namespace QubePolicy

namespace Disk

variable {d d' : Disk} {p : Path}

theorem read_of_look {content : Option (List UInt8)} (h : d.look p = some content) :
    d.read p = content.elim (.error .isDirectory) .ok := by
  unfold look FileTree.look at h
  unfold read find
  cases hfind : d.root.find p.names with
  | error e =>
    rw [hfind] at h
    cases h
  | ok tree =>
    rw [hfind] at h
    cases h
    cases tree <;> rfl

theorem readText_congr (h : d'.look p = d.look p) (hthere : d.exists? p = true) :
    d'.readText p = d.readText p := by
  rw [exists?_eq] at hthere
  obtain ⟨content, hlook⟩ := Option.isSome_iff_exists.mp hthere
  rw [readText, readText, read_of_look hlook, read_of_look (h.trans hlook)]

end Disk

namespace Store

variable {s : Store} {d d' : Disk} {p : Path} {bytes : List UInt8} {name : String}
  {opened opened' : List PolicyFile} {allowIncludes : Bool}

/-! ## names of include files -/

theorem fileNames_eq (d : Disk) (p : Path) : fileNames d p =
    match d.listing p with
    | some names => .ok names
    | none => .error (.system .notDirectory) := by
  unfold fileNames Disk.listing FileTree.listing Disk.find
  cases d.root.find p.names with
  | error e => rfl
  | ok tree => cases tree <;> rfl

def mainNames (files : List String) : List String :=
  Text.sort ((files.filterMap (Text.before? ".policy")).filter Text.isFileName)

def includeNames (files : List String) : List String :=
  (Text.sort (files.filter Text.isFileName)).map ("include/" ++ ·)

theorem mem_mainNames {files : List String} :
    name ∈ mainNames files ↔ Text.isFileName name = true ∧ name ++ ".policy" ∈ files := by
  rw [mainNames, Text.sort, List.mem_mergeSort, List.mem_filter, List.mem_filterMap, and_comm]
  simp only [Text.before?_eq_some_iff]
  refine and_congr_right fun _ => ⟨?_, fun h => ⟨_, h, rfl⟩⟩
  rintro ⟨file, hfile, rfl⟩
  exact hfile

theorem mem_includeNames {files : List String} : name ∈ includeNames files ↔
    ∃ base, Text.isFileName base = true ∧ base ∈ files ∧ name = "include/" ++ base := by
  rw [includeNames, List.mem_map]
  simp only [Text.sort, List.mem_mergeSort, List.mem_filter, eq_comm, and_assoc, and_left_comm]

theorem not_isInclude_of_mem {files : List String} (h : name ∈ mainNames files) :
    PolicyName.isInclude name = false :=
  PolicyName.not_isInclude (mem_mainNames.mp h).1

theorem isInclude_of_mem {files : List String} (h : name ∈ includeNames files) :
    PolicyName.isInclude name = true := by
  obtain ⟨base, -, -, rfl⟩ := mem_includeNames.mp h
  rw [PolicyName.isInclude, Text.after?_eq_some_iff.mpr rfl]
  rfl

theorem filter_isInclude (main included : List String) :
    (mainNames main ++ includeNames included).filter PolicyName.isInclude =
      includeNames included := by
  rw [List.filter_append, List.filter_eq_self.mpr fun _ => isInclude_of_mem,
    List.filter_eq_nil_iff.mpr fun _ h => by simp [not_isInclude_of_mem h], List.nil_append]

theorem filter_not_isInclude (main included : List String) :
    (mainNames main ++ includeNames included).filter (fun n => !PolicyName.isInclude n) =
      mainNames main := by
  rw [List.filter_append, List.filter_eq_self.mpr fun _ h => by simp [not_isInclude_of_mem h],
    List.filter_eq_nil_iff.mpr fun _ h => by simp [isInclude_of_mem h], List.append_nil]

/-- **The main files are listed, then the include files**, once both directories are read. -/
theorem list_eq (s : Store) (d : Disk) : s.list d =
    match d.listing s.directory, d.listing s.includeDirectory with
    | some main, some included => .ok (mainNames main ++ includeNames included)
    | _, _ => .error (.system .notDirectory) := by
  unfold list
  rw [fileNames_eq, fileNames_eq]
  cases d.listing s.directory with
  | none => rfl
  | some main => cases d.listing s.includeDirectory <;> rfl

theorem filter_list (s : Store) (d : Disk) :
    (s.list d).map (List.filter PolicyName.isInclude) =
      match d.listing s.directory, d.listing s.includeDirectory with
      | some _, some included => .ok (includeNames included)
      | _, _ => .error (.system .notDirectory) := by
  rw [list_eq]
  cases d.listing s.directory with
  | none => rfl
  | some main =>
    cases d.listing s.includeDirectory with
    | none => rfl
    | some included => exact congrArg Except.ok (filter_isInclude main included)

/-- Both directories can be read on the one disk if they can on the other, and list the same include
files. -/
structure ListsAlike (s : Store) (d d' : Disk) : Prop where
  main : (d'.listing s.directory).isSome = (d.listing s.directory).isSome
  included : (d'.listing s.includeDirectory).map (List.filter Text.isFileName) =
    (d.listing s.includeDirectory).map (List.filter Text.isFileName)

theorem filter_list_congr (h : s.ListsAlike d d') :
    (s.list d').map (List.filter PolicyName.isInclude) =
      (s.list d).map (List.filter PolicyName.isInclude) := by
  obtain ⟨hmain, hincluded⟩ := h
  rw [filter_list, filter_list]
  cases hd : d.listing s.directory with
  | none =>
    rw [hd, Option.isSome_none, Option.isSome_eq_false_iff, Option.isNone_iff_eq_none] at hmain
    rw [hmain]
  | some main =>
    rw [hd, Option.isSome_some, Option.isSome_iff_exists] at hmain
    obtain ⟨main', hd'⟩ := hmain
    rw [hd']
    cases hi : d.listing s.includeDirectory with
    | none =>
      rw [hi, Option.map_none, Option.map_eq_none_iff] at hincluded
      rw [hincluded]
    | some included =>
      rw [hi, Option.map_some, Option.map_eq_some_iff] at hincluded
      obtain ⟨included', hi', hsame⟩ := hincluded
      rw [hi']
      simp only [includeNames]
      rw [hsame]

/-! ## loading -/

def AgreeUnopened (s : Store) (opened : List PolicyFile) (d d' : Disk) : Prop :=
  ∀ name p, opened.find? (·.name == name) = none → s.path name = .ok p → d'.look p = d.look p

theorem exists?_congr (hlook : ∀ p, s.path name = .ok p → d'.look p = d.look p) :
    s.exists? d' name = s.exists? d name := by
  unfold exists?
  cases hp : s.path name with
  | error e => rfl
  | ok p =>
    show Except.ok (d'.exists? p) = Except.ok (d.exists? p)
    rw [Disk.exists?_eq, Disk.exists?_eq, hlook p hp]

theorem get_congr (hlook : ∀ p, s.path name = .ok p → d'.look p = d.look p)
    (hthere : s.exists? d name = .ok true) : s.get d' name = s.get d name := by
  obtain ⟨p, hp, hthere⟩ := exists?_eq_ok_iff.mp hthere
  have hread := Disk.readText_congr (hlook p hp) hthere
  simp only [get, hp, bind, Except.bind, hread]

theorem load_congr (hopened : opened'.find? (·.name == name) = opened.find? (·.name == name))
    (hagree : s.AgreeUnopened opened d d') :
    s.load d' opened' allowIncludes name = s.load d opened allowIncludes name := by
  unfold load
  rw [hopened]
  cases hfind : opened.find? (·.name == name) with
  | some f => rfl
  | none =>
    have hlook := fun p => hagree name p hfind
    rw [exists?_congr hlook]
    cases hthere : s.exists? d name with
    | error e => rfl
    | ok there =>
      cases there with
      | false => rfl
      | true => exact congrArg (Except.map _) (get_congr hlook hthere)

theorem loadAll_congr (h : ∀ name,
      s.load d' opened' allowIncludes name = s.load d opened allowIncludes name)
    (names : List String) :
    s.loadAll d' opened' allowIncludes names = s.loadAll d opened allowIncludes names := by
  induction names with
  | nil => rfl
  | cons name names ih => rw [loadAll, loadAll, h name, ih]

theorem load_of_textOf? {text : String} (hfind : opened.find? (·.name == name) = none)
    (htext : s.textOf? d name = some text) :
    s.load d opened allowIncludes name = .ok (some (.ofText name allowIncludes text)) := by
  obtain ⟨p, hp, hread⟩ := textOf?_eq_some_iff.mp htext
  have hthere : s.exists? d name = .ok true :=
    exists?_eq_ok_iff.mpr ⟨p, hp, exists_of_readText hread⟩
  have hget : s.get d name = .ok (text, .ofText text) := get_eq_ok_iff.mpr ⟨htext, rfl⟩
  rw [load, hfind, hthere, hget]
  rfl

theorem loadAll_cons (name : String) (names : List String) :
    s.loadAll d opened allowIncludes (name :: names) =
      ((s.load d opened allowIncludes name).map Option.toList).bind fun fs =>
        (s.loadAll d opened allowIncludes names).map (fs ++ ·) := by
  rw [loadAll]
  cases s.load d opened allowIncludes name with
  | error e => rfl
  | ok found => cases s.loadAll d opened allowIncludes names <;> rfl

theorem file_includes (path : String) : (s.includes d opened allowIncludes).file path =
    match s.nameAt? path with
    | some name => s.load d opened allowIncludes name
    | none => .ok none := rfl

theorem directory_includes (path : String) :
    (s.includes d opened allowIncludes).directory path =
      if s.isIncludeDirectory path then
        ((s.list d).map (List.filter PolicyName.isInclude)).bind (s.loadAll d opened allowIncludes)
      else .ok [] := by
  unfold includes
  simp only
  cases s.list d <;> rfl

/-- **Include lines are answered alike** if the disks list alike and agree where it matters. -/
theorem resolve_congr (hlists : s.ListsAlike d d')
    (hopened : ∀ name, opened'.find? (·.name == name) = opened.find? (·.name == name))
    (hagree : s.AgreeUnopened opened d d') (directive : Directive) (path : String) :
    (s.includes d' opened' allowIncludes).resolve directive path =
      (s.includes d opened allowIncludes).resolve directive path := by
  have hload (name : String) : s.load d' opened' allowIncludes name =
      s.load d opened allowIncludes name := load_congr (hopened name) hagree
  cases directive with
  | file =>
    rw [Includes.resolve, Includes.resolve, file_includes, file_includes]
    cases s.nameAt? path with
    | none => rfl
    | some name => exact congrArg (Except.map Option.toList) (hload name)
  | directory =>
    rw [Includes.resolve, Includes.resolve, directory_includes, directory_includes,
      filter_list_congr hlists]
    rw [funext (loadAll_congr hload)]

/-! ## writing -/

/-- **Writing leaves the include files that are listed**, unless it adds one. -/
theorem listsAlike_writeAt (hs : s.SparesDirectories) (hp : s.path name = .ok p)
    (hstored : PolicyName.isInclude name = true → d.exists? p = true)
    (h : writeAt d p bytes = (.ok (), d')) : s.ListsAlike d d' where
  main := by
    rcases listing_writeAt hs hp s.directory_mem h with hsame | ⟨file, -, -, hadded⟩
    · rw [hsame]
    · rw [hadded, Option.isSome_map]
  included := by
    rcases listing_writeAt hs hp s.includeDirectory_mem h with
      hsame | ⟨file, hfile, hnone, hadded⟩
    · rw [hsame]
    · rcases path_eq_ok hp with ⟨hinclude, -⟩ | ⟨-, -, hmain⟩
      · have hthere := hstored hinclude
        rw [Disk.exists?_eq, hnone] at hthere
        cases hthere
      · have hname : Text.isFileName file = false := by
          rw [← (Path.child_inj (hmain.symm.trans hfile)).2]
          exact PolicyName.not_isFileName_main name
        rw [hadded, Option.map_map]
        congr 1
        funext names
        simp [hname]

end Store

end QubePolicy
