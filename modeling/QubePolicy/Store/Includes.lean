import QubePolicy.Includes
import QubePolicy.Store

/-!
# Includes from the store

An include line names a file of the store, or the whole include directory. Files that are open
stand in for their stored versions.

* `Store.load`        a file by name, open or stored;
* `Store.includes`    the files behind include lines. Their names are among those of the open
                      files and of the entries of the two directories, so they are finitely many.
-/

namespace QubePolicy

/-! ## entries -/

namespace Disk

def entryNames (d : Disk) (p : Path) : List String :=
  match d.find p with
  | .ok (.directory entries) => entries.map Prod.fst
  | _ => []

theorem mem_map_fst_of_lookup {name : String} {tree : FileTree} {entries : List (String × FileTree)}
    (h : entries.lookup name = some tree) : name ∈ entries.map Prod.fst := by
  induction entries with
  | nil => simp at h
  | cons e entries ih =>
    rw [List.lookup_cons] at h
    split at h
    · next he => simp [eq_of_beq he]
    · exact List.mem_cons_of_mem _ (ih h)

theorem mem_entryNames {d : Disk} {p : Path} {name : String} (h : d.exists? (p.child name)) :
    name ∈ d.entryNames p := by
  unfold exists? find Path.child at h
  rw [FileTree.find_append] at h
  unfold entryNames find
  cases hp : d.root.find p.names with
  | error e => rw [hp] at h; cases h
  | ok tree =>
    rw [hp] at h
    cases tree with
    | file bytes => cases h
    | directory entries =>
      simp only [Except.bind, FileTree.find] at h
      split at h
      · next tree htree => exact mem_map_fst_of_lookup htree
      · cases h

end Disk

namespace Store

/-! ## loading -/

/-- The file with a name: the open one, else the stored one, if there is one. -/
def load (s : Store) (d : Disk) (opened : List PolicyFile) (allowIncludes : Bool)
    (name : String) : Except Fault (Option PolicyFile) :=
  match opened.find? (·.name == name), s.exists? d name with
  | some f, _ => .ok (some f)
  | none, .error e => .error e
  | none, .ok false => .ok none
  | none, .ok true => (s.get d name).map fun (text, _) => some (.ofText name allowIncludes text)

def loadAll (s : Store) (d : Disk) (opened : List PolicyFile) (allowIncludes : Bool) :
    List String → Except Fault (List PolicyFile)
  | [] => .ok []
  | name :: names =>
    match s.load d opened allowIncludes name, loadAll s d opened allowIncludes names with
    | .error e, _ => .error e
    | _, .error e => .error e
    | .ok found, .ok files => .ok (found.toList ++ files)

/-- Every name that a loaded file can have. -/
def loadable (s : Store) (d : Disk) (opened : List PolicyFile) : List String :=
  opened.map PolicyFile.name ++ (d.entryNames s.directory).filterMap (Text.before? ".policy") ++
    (d.entryNames s.includeDirectory).map ("include/" ++ ·)

theorem mem_loadable_of_exists {s : Store} {d : Disk} (opened : List PolicyFile) {name : String}
    (h : s.exists? d name = .ok true) : name ∈ s.loadable d opened := by
  unfold Store.exists? path at h
  split at h
  · injection h with h
    split at h
    · next base hbase =>
      rw [Text.after?_eq_some_iff.mp hbase]
      exact List.mem_append_right _ (List.mem_map_of_mem (Disk.mem_entryNames h))
    · refine List.mem_append_left _ (List.mem_append_right _ (List.mem_filterMap.mpr
        ⟨name ++ ".policy", Disk.mem_entryNames h, Text.before?_eq_some_iff.mpr rfl⟩))
  · cases h

theorem mem_loadable {s : Store} {d : Disk} {opened : List PolicyFile} {allowIncludes : Bool}
    {name : String} {f : PolicyFile} (h : s.load d opened allowIncludes name = .ok (some f)) :
    f.name ∈ s.loadable d opened := by
  unfold load at h
  split at h
  · next g hg =>
    cases h
    exact List.mem_append_left _ (List.mem_append_left _
      (List.mem_map_of_mem (List.mem_of_find?_eq_some hg)))
  · cases h
  · cases h
  · next hthere =>
    cases hget : s.get d name with
    | error e => rw [hget] at h; cases h
    | ok got =>
      rw [hget] at h
      cases h
      exact mem_loadable_of_exists opened hthere

theorem mem_loadable_of_loadAll {s : Store} {d : Disk} {opened : List PolicyFile}
    {allowIncludes : Bool} {names : List String} {fs : List PolicyFile}
    (h : s.loadAll d opened allowIncludes names = .ok fs) :
    ∀ f ∈ fs, f.name ∈ s.loadable d opened := by
  induction names generalizing fs with
  | nil => cases h; simp
  | cons name names ih =>
    unfold loadAll at h
    split at h
    · cases h
    · cases h
    · next found files hload hall =>
      cases h
      intro f hf
      rcases List.mem_append.mp hf with hf | hf
      · rw [Option.mem_toList] at hf
        exact mem_loadable (hload.trans (by rw [hf]))
      · exact ih hall f hf

/-! ## include lines -/

/-- The files behind include lines, read from the disk unless they are open. -/
def includes (s : Store) (d : Disk) (opened : List PolicyFile) (allowIncludes : Bool) :
    Includes Fault where
  file path :=
    match s.nameAt? path with
    | some name => s.load d opened allowIncludes name
    | none => .ok none
  directory path :=
    if s.isIncludeDirectory path then
      match s.list d with
      | .ok names => s.loadAll d opened allowIncludes (names.filter PolicyName.isInclude)
      | .error e => .error e
    else .ok []
  names := s.loadable d opened
  file_mem h := by
    split at h
    · exact mem_loadable h
    · cases h
  directory_mem h := by
    split at h
    · split at h
      · exact mem_loadable_of_loadAll h
      · cases h
    · cases h; simp

end Store

end QubePolicy
