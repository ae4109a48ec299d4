import QubePolicy.FileTree
import QubePolicy.Path
import QubePolicy.Text.Units
import QubePolicy.Text.Utf8

/-!
# The disk

A disk is one file tree. A single change gives the changed disk or the fault for which nothing is
changed; what takes several changes gives the disk in either case.

* `Disk.find`          what is at a place;
* `Disk.write`, `append`, `erase`, `makeDirectories`, `rename`   changes at a place;
* `Disk.replace`       a file written beside its target and moved over it, so that the target is
                       never half written;
* `Disk.locate`        the place that a text names, each piece followed on the disk;
* `Disk.texts`         the files with their texts.
-/

namespace QubePolicy

structure Disk where
  root : FileTree

namespace Disk

def blank : Disk := ⟨.directory []⟩

/-! ## what is there -/

def find (d : Disk) (p : Path) : Except SystemFault FileTree := d.root.find p.names

def exists? (d : Disk) (p : Path) : Bool := (d.find p).isOk

def read (d : Disk) (p : Path) : Except SystemFault (List UInt8) := do
  match ← d.find p with
  | .file bytes => .ok bytes
  | .directory _ => .error .isDirectory

def readText (d : Disk) (p : Path) : Except SystemFault String :=
  (d.read p).map Text.Utf8.decode

def entries (d : Disk) (p : Path) : Except SystemFault (List (String × FileTree)) := do
  match ← d.find p with
  | .file _ => .error .notDirectory
  | .directory es => .ok es

/-! ## changes -/

/-- A file with the bytes at a place where there is a file or nothing. -/
def write (d : Disk) (p : Path) (bytes : List UInt8) : Except SystemFault Disk :=
  match d.find p with
  | .ok (.directory _) => .error .isDirectory
  | _ => (FileTree.put (.file bytes) p.names d.root).map Disk.mk

/-- The bytes behind those of the file at a place; a missing file counts as empty. -/
def append (d : Disk) (p : Path) (bytes : List UInt8) : Except SystemFault Disk :=
  match d.read p with
  | .ok before => d.write p (before ++ bytes)
  | .error .missing => d.write p bytes
  | .error e => .error e

def erase (d : Disk) (p : Path) : Disk := ⟨d.root.erase p.names⟩

def makeDirectories (d : Disk) (p : Path) : Except SystemFault Disk :=
  (d.root.makeDirectories p.names).map Disk.mk

/-- Whether what is at `target` may be replaced by a tree: a file by a file, an empty directory
by a directory. -/
def mayReplace (d : Disk) (tree : FileTree) (target : Path) : Except SystemFault Unit :=
  match d.find target, tree with
  | .error .missing, _ => .ok ()
  | .error e, _ => .error e
  | .ok (.file _), .file _ => .ok ()
  | .ok (.file _), .directory _ => .error .notDirectory
  | .ok (.directory []), .directory _ => .ok ()
  | .ok (.directory (_ :: _)), .directory _ => .error .notEmpty
  | .ok (.directory _), .file _ => .error .isDirectory

/-- What is at `source`, moved to `target`. Nothing is moved below itself. -/
def rename (d : Disk) (source target : Path) : Except SystemFault Disk := do
  let tree ← d.find source
  if source = target then .ok d
  else if (source.below? target).isSome then .error .invalid
  else do
    d.mayReplace tree target
    let root ← FileTree.put tree target.names d.root
    return ⟨root.erase source.names⟩

/-! ## replacing a file -/

/-- A name that is longer than every name in the entries, and so is none of them. -/
def freshName (base : String) (entries : List (String × FileTree)) : String :=
  let longest := (entries.map fun e => e.1.length).foldl max 0
  let filler := String.ofList (List.replicate longest '0')
  s!".{base}.{filler}.tmp"

/-- The disk with the bytes at a place. They are written to a new file beside it first, which is
then moved over it; if that fails, the new file is taken away. -/
def replace (d : Disk) (p : Path) (bytes : List UInt8) : Except SystemFault Unit × Disk :=
  match d.entries p.parent with
  | .error e => (.error e, d)
  | .ok es =>
    let temporary := p.parent.child (freshName p.name es)
    match d.write temporary bytes with
    | .error e => (.error e, d)
    | .ok written =>
      match written.rename temporary p with
      | .error e => (.error e, written.erase temporary)
      | .ok moved => (.ok (), moved)

/-! ## texts of paths -/

def follow (d : Disk) (names : List String) : List String → Except SystemFault Path
  | [] => .ok ⟨names⟩
  | piece :: pieces =>
    match d.find ⟨names⟩ with
    | .ok (.directory _) => follow d (Path.step names piece) pieces
    | .ok (.file _) => .error .notDirectory
    | .error e => .error e

/-- The place that a text names, from the root. Only its last piece may be missing. -/
def locate (d : Disk) (text : String) : Except SystemFault Path :=
  if text = "" then .error .missing
  else if text.toList.contains '\x00' then .error .invalid
  else d.follow [] (Path.pieces text)

def existsAt (d : Disk) (text : String) : Bool :=
  match d.locate text with
  | .ok p => d.exists? p
  | .error _ => false

def makePieces (d : Disk) (names : List String) : List String → Except SystemFault Disk
  | [] => d.makeDirectories ⟨names⟩
  | piece :: pieces => do
    let made ← d.makeDirectories ⟨names⟩
    makePieces made (Path.step names piece) pieces

def makeDirectoriesAt (d : Disk) (text : String) : Except SystemFault Disk :=
  d.makePieces [] (Path.pieces text)

def replaceAt (d : Disk) (text : String) (bytes : List UInt8) : Except SystemFault Unit × Disk :=
  match d.locate text with
  | .error e => (.error e, d)
  | .ok p => d.replace p bytes

def texts (d : Disk) : List (String × String) :=
  (d.root.files.map fun (names, bytes) => (Path.render ⟨names⟩, Text.Utf8.decode bytes)).mergeSort
    fun a b => !Text.before b.1 a.1

end Disk

end QubePolicy
