/-!
# File trees

A directory holds files and directories under their names, a file holds bytes. A change gives the
changed tree or the fault for which nothing is changed.

* `SystemFault`        why the file system refuses;
* `FileTree`           a file or a directory;
* `FileTree.find`      what is found on the way down some names;
* `FileTree.put`, `erase`, `makeDirectories`   changes at the end of some names;
* `FileTree.files`     the files of a tree with the names on the way to them.
-/

namespace QubePolicy

/-! ## faults -/

inductive SystemFault where
  | missing
  | notDirectory
  | isDirectory
  | notEmpty
  | invalid
  deriving DecidableEq, Repr

/-- The wording of the file system is its own, so all its faults are told alike. -/
def SystemFault.message (_ : SystemFault) : String := "OS_ERROR"

/-! ## trees -/

inductive FileTree where
  | file (bytes : List UInt8)
  | directory (entries : List (String × FileTree))

def FileTree.assign (name : String) (tree : FileTree) :
    List (String × FileTree) → List (String × FileTree)
  | [] => [(name, tree)]
  | (n, t) :: rest => if n == name then (n, tree) :: rest else (n, t) :: assign name tree rest

namespace FileTree

/-! ## places in a tree -/

def find : List String → FileTree → Except SystemFault FileTree
  | [], tree => .ok tree
  | _ :: _, .file _ => .error .notDirectory
  | name :: names, .directory entries =>
    match entries.lookup name with
    | some tree => find names tree
    | none => .error .missing

theorem find_append (a b : List String) (tree : FileTree) :
    tree.find (a ++ b) = (tree.find a).bind fun n => n.find b := by
  induction a generalizing tree with
  | nil => rfl
  | cons name a ih =>
    cases tree with
    | file bytes => rfl
    | directory entries =>
      simp only [List.cons_append, find]
      split
      · exact ih _
      · rfl

/-- The tree with another one put at the end of the names; the directories above it must be there. -/
def put (new : FileTree) : List String → FileTree → Except SystemFault FileTree
  | [], _ => .ok new
  | _ :: _, .file _ => .error .notDirectory
  | name :: names, .directory entries =>
    match entries.lookup name, names with
    | some tree, _ => do
      let changed ← put new names tree
      return .directory (assign name changed entries)
    | none, [] => .ok (.directory (assign name new entries))
    | none, _ :: _ => .error .missing

def erase : List String → FileTree → FileTree
  | [], tree => tree
  | _ :: _, .file bytes => .file bytes
  | [name], .directory entries => .directory (entries.filter (·.1 != name))
  | name :: names, .directory entries =>
    match entries.lookup name with
    | some tree => .directory (assign name (erase names tree) entries)
    | none => .directory entries

/-- The tree with a directory at the end of the names and wherever one is missing on the way. -/
def makeDirectories : List String → FileTree → Except SystemFault FileTree
  | _, .file _ => .error .notDirectory
  | [], .directory entries => .ok (.directory entries)
  | name :: names, .directory entries => do
    let changed ← makeDirectories names ((entries.lookup name).getD (.directory []))
    return .directory (assign name changed entries)

mutual

def files : FileTree → List (List String × List UInt8)
  | .file bytes => [([], bytes)]
  | .directory entries => filesOf entries

def filesOf : List (String × FileTree) → List (List String × List UInt8)
  | [] => []
  | (name, tree) :: rest =>
    ((files tree).map fun (names, bytes) => (name :: names, bytes)) ++ filesOf rest

end

end FileTree

end QubePolicy
