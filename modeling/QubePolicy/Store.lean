import QubePolicy.Disk
import QubePolicy.Fault
import QubePolicy.Text.Names
import QubePolicy.Sha256
import QubePolicy.Text.Units

/-!
# The store

Main policy files lie in the policy directory as `NAME.policy`, include files in the include
directory as `NAME`; the latter are called `include/NAME`.

* `PolicyName`       the names of policy files;
* `Version`          what a file is expected to be when it is replaced;
* `Store`            the two directories;
* `Store.list`, `exists?`, `get`, `replace`   the files by name;
* `Store.nameAt?`    the policy file that the path of an include line names.
-/

namespace QubePolicy

/-! ## names -/

namespace PolicyName

def isInclude (name : String) : Bool := (Text.after? "include/" name).isSome

/-- The name of a file inside its directory, without the extension. -/
def base (name : String) : String := (Text.after? "include/" name).getD name

def isValid (name : String) : Bool := Text.isFileName (base name)

end PolicyName

/-! ## versions -/

/-- What is expected of a stored file: that it is not there, anything, or a certain content, known
by its digest. -/
inductive Version where
  | new
  | any
  | content (digest : String)
  deriving DecidableEq, Repr

namespace Version

def ofText (text : String) : Version := .content (Sha256.hex (Text.Utf8.encode text))

def render : Version → String
  | .new => "new"
  | .any => "any"
  | .content digest => digest

def parse (s : String) : Version :=
  if s = "new" then .new else if s = "any" then .any else .content s

end Version

/-! ## stores -/

structure Store where
  directory : Path
  includeDirectory : Path
  deriving DecidableEq, Repr

namespace Store

/-- The store over two directories; the include directory is inside the policy directory unless
it is given. -/
def ofTexts (directory : String) (includeDirectory : Option String) : Store :=
  ⟨Path.root.resolve directory,
    Path.root.resolve (includeDirectory.getD (Path.joined directory "include"))⟩

def path (s : Store) (name : String) : Except Fault Path :=
  if PolicyName.isValid name then
    .ok (match Text.after? "include/" name with
      | some base => s.includeDirectory.child base
      | none => s.directory.child (name ++ ".policy"))
  else .error (.misuse (.invalidFileName name))

/-! ## reading -/

/-- The names of the files in a directory; a missing directory has none. -/
def fileNames (d : Disk) (p : Path) : Except Fault (List String) :=
  match d.find p with
  | .error _ => .ok []
  | .ok (.file _) => .error (.system .notDirectory)
  | .ok (.directory entries) =>
    .ok (entries.filterMap fun (name, tree) =>
      match tree with
      | .file _ => some name
      | .directory _ => none)

/-- The stored files: the main files in the order of their names, then the include files. -/
def list (s : Store) (d : Disk) : Except Fault (List String) := do
  let main ← fileNames d s.directory
  let included ← fileNames d s.includeDirectory
  return Text.sort ((main.filterMap (Text.before? ".policy")).filter Text.isFileName) ++
    (Text.sort (included.filter Text.isFileName)).map ("include/" ++ ·)

def exists? (s : Store) (d : Disk) (name : String) : Except Fault Bool :=
  (s.path name).map d.exists?

def get (s : Store) (d : Disk) (name : String) : Except Fault (String × Version) := do
  match d.readText (← s.path name) with
  | .ok text => .ok (text, .ofText text)
  | .error .missing => .error (.storage name .missing)
  | .error e => .error (.storage name (.unreadable e))

/-! ## writing -/

def check (s : Store) (d : Disk) (name : String) (expected : Version) : Except Fault Unit := do
  let there ← s.exists? d name
  match expected with
  | .any => .ok ()
  | .new => if there then .error (.storage name .alreadyThere) else .ok ()
  | .content _ =>
    if there then
      if (← s.get d name).2 = expected then .ok () else .error (.storage name .modified)
    else .error (.storage name .modified)

def writeAt (d : Disk) (p : Path) (bytes : List UInt8) : Except SystemFault Unit × Disk :=
  match d.makeDirectories p.parent with
  | .error e => (.error e, d)
  | .ok made => made.replace p bytes

/-- Gives a file a new text, if it is as expected, and tells the version of the text. -/
def replace (s : Store) (d : Disk) (name text : String) (expected : Version) :
    Except Fault Version × Disk :=
  match s.check d name expected, s.path name with
  | .error e, _ => (.error e, d)
  | _, .error e => (.error e, d)
  | .ok (), .ok p =>
    match writeAt d p (Text.Utf8.encode text) with
    | (.ok (), written) => (.ok (.ofText text), written)
    | (.error e, left) => (.error (.storage name (.unwritable e)), left)

/-! ## paths of include lines -/

/-- The policy file at the path of an include line, read from the policy directory. -/
def nameAt? (s : Store) (text : String) : Option String :=
  let p := s.directory.resolve text
  match s.includeDirectory.below? p with
  | some [base] => if Text.isFileName base then some ("include/" ++ base) else mainName? p
  | _ => mainName? p
where
  mainName? (p : Path) : Option String :=
    match s.directory.below? p with
    | some [file] => (Text.before? ".policy" file).filter Text.isFileName
    | _ => none

def isIncludeDirectory (s : Store) (text : String) : Bool :=
  s.directory.resolve text == s.includeDirectory

end Store

end QubePolicy
