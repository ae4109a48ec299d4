import QubePolicy.PolicyFile
import QubePolicy.Text.Ends

/-!
# Included files

* `Includes`           the files that the include lines of a policy stand for. They bear finitely
                       many names, listed in `names`;
* `Includes.ofFiles`   the given files, each at the path that is its name.
-/

namespace QubePolicy

/-- The files behind the paths of include lines; finding them may fail with an `ε`. -/
structure Includes (ε : Type) where
  file : String → Except ε (Option PolicyFile)
  directory : String → Except ε (List PolicyFile)
  names : List String
  file_mem : ∀ {path f}, file path = .ok (some f) → f.name ∈ names
  directory_mem : ∀ {path fs}, directory path = .ok fs → ∀ f ∈ fs, f.name ∈ names

namespace Includes

variable {ε : Type}

def resolve (inc : Includes ε) : Directive → String → Except ε (List PolicyFile)
  | .file, path => (inc.file path).map Option.toList
  | .directory, path => inc.directory path

theorem resolve_mem (inc : Includes ε) {directive : Directive} {path : String}
    {fs : List PolicyFile} (h : inc.resolve directive path = .ok fs) :
    ∀ f ∈ fs, f.name ∈ inc.names := by
  cases directive with
  | directory => exact inc.directory_mem h
  | file =>
    intro f hf
    simp only [resolve] at h
    cases hfile : inc.file path with
    | error e => rw [hfile] at h; cases h
    | ok found =>
      rw [hfile] at h
      injection h with h
      subst h
      exact inc.file_mem (hfile.trans (by rw [Option.mem_toList.mp hf]))

/-- Each file stands at the path that is its name, and in the directories above it. -/
def ofFiles (files : List PolicyFile) : Includes ε where
  file path := .ok (files.find? (·.name == path))
  directory path :=
    let inside := files.filter fun f => (Text.after? (path ++ "/") f.name).isSome
    .ok (inside.mergeSort fun f g => !Text.before g.name f.name)
  names := files.map PolicyFile.name
  file_mem h := by
    injection h with h
    exact List.mem_map_of_mem (List.mem_of_find?_eq_some h)
  directory_mem h := by
    injection h with h
    subst h
    intro f hf
    exact List.mem_map_of_mem (List.mem_filter.mp (List.mem_mergeSort.mp hf)).1

end Includes

end QubePolicy
