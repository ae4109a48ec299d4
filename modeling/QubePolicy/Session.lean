import QubePolicy.AuditLog
import QubePolicy.Evaluation
import QubePolicy.PolicyFile.FieldEdit
import QubePolicy.PolicyFile.Validation
import QubePolicy.Store.Includes

/-!
# Editing sessions

A session holds the policy files that are open for editing. Saving goes through the store, with
the version of the file that the session knows, so that what someone else has written since is
never lost.

* `OpenFile`          a file, its known version and its text at that version;
* `Session`           the store, the audit log if there is one, and the open files;
* `Session.open`, `create`, `close`, `reset`   which files are open, and at which version;
* `Session.edit`      a change of an open file;
* `Session.save`      an open file written to the store;
* `Session.preview`   the decision on a request as it would be after saving.
-/

namespace QubePolicy

structure OpenFile where
  file : PolicyFile
  version : Version
  /-- the text as it was last loaded or saved -/
  savedText : String
  deriving DecidableEq, Repr

def OpenFile.isModified (o : OpenFile) : Bool := o.file.text != o.savedText

structure Session where
  store : Store
  audit : Option AuditLog
  /-- whether files may include others, unless they are opened otherwise -/
  allowIncludes : Bool
  opened : List OpenFile

namespace Session

/-! ## open files -/

def find? (s : Session) (name : String) : Option OpenFile :=
  s.opened.find? (·.file.name == name)

def entry (s : Session) (name : String) : Except Fault OpenFile :=
  match s.find? name with
  | some o => .ok o
  | none => .error (.misuse (.notOpen name))

/-- The session with an open file, in place of the one with its name if there is one. -/
def put (s : Session) (o : OpenFile) : Session :=
  { s with opened := (s.opened.filter (·.file.name != o.file.name)) ++ [o] }

def remove (s : Session) (name : String) : Session :=
  { s with opened := s.opened.filter (·.file.name != name) }

def files (s : Session) : List String := Text.sort (s.opened.map (·.file.name))

def loaded (s : Session) (d : Disk) (name : String) (allowIncludes : Bool) :
    Except Fault OpenFile := do
  let (text, version) ← s.store.get d name
  return ⟨.ofText name allowIncludes text, version, text⟩

/-! ## opening and closing

An operation has a result or fails, and leaves a session in both cases. -/

/-- Opens a stored file. One that is open already stays as it is, and may not be asked for with
another permission to include. -/
def «open» (s : Session) (d : Disk) (name : String) (allowIncludes : Option Bool) :
    Except Fault PolicyFile × Session :=
  match s.find? name with
  | some o =>
    if allowIncludes.all (· == o.file.allowIncludes) then (.ok o.file, s)
    else (.error (.misuse (.alreadyOpen name o.file.allowIncludes)), s)
  | none =>
    match s.loaded d name (allowIncludes.getD s.allowIncludes) with
    | .error e => (.error e, s)
    | .ok o => (.ok o.file, s.put o)

def create (s : Session) (d : Disk) (name : String) (allowIncludes : Option Bool) :
    Except Fault PolicyFile × Session :=
  match s.store.exists? d name with
  | .error e => (.error e, s)
  | .ok there =>
    if (s.find? name).isSome || there then (.error (.storage name .alreadyThere), s)
    else
      let f := PolicyFile.empty name (allowIncludes.getD s.allowIncludes)
      (.ok f, s.put ⟨f, .new, ""⟩)

def close (s : Session) (name : String) : Except Fault Unit × Session :=
  match s.entry name with
  | .error e => (.error e, s)
  | .ok _ => (.ok (), s.remove name)

/-- Drops what is not saved: a file that was never saved is empty again, another one is loaded
anew. -/
def reset (s : Session) (d : Disk) (name : String) : Except Fault (List Diagnostic) × Session :=
  match s.entry name with
  | .error e => (.error e, s)
  | .ok o =>
    if o.version = .new then
      let f := PolicyFile.empty name o.file.allowIncludes
      (.ok f.diagnostics, s.put { o with file := f })
    else
      match s.loaded d name o.file.allowIncludes with
      | .error e => (.error e, s)
      | .ok o => (.ok o.file.diagnostics, s.put o)

/-! ## editing -/

def edit (s : Session) (name : String) (change : PolicyFile → Except Fault PolicyFile) :
    Except Fault (List Diagnostic) × Session :=
  match s.entry name with
  | .error e => (.error e, s)
  | .ok o =>
    match change o.file with
    | .error e => (.error e, s)
    | .ok f => (.ok f.diagnostics, s.put { o with file := f })

def setText (s : Session) (name text : String) : Except Fault (List Diagnostic) × Session :=
  s.edit name fun f => .ok (f.withText text)

def insertRule (s : Session) (name : String) (index : Number) (tokens : List String) :
    Except Fault (List Diagnostic) × Session :=
  match tokens with
  | [] => (.error (.misuse .noTokens), s)
  | tokens => s.edit name (·.insertLine index (" ".intercalate tokens))

/-! ## saving -/

def record (s : Session) (name : String) (outcome : AuditLog.Outcome)
    (diagnostics : List Diagnostic) (reason : Option String) (h : Host) : Host :=
  match s.audit with
  | some a => a.record name outcome diagnostics reason h
  | none => h

/-- Writes an open file to the store. A file with errors is refused; a file that the store does
not take stays as it is, so that it can be saved again. Each attempt is recorded. -/
def save (s : Session) (h : Host) (name : String) : Except Fault Unit × Session × Host :=
  match s.entry name with
  | .error e => (.error e, s, h)
  | .ok o =>
    let diagnostics := o.file.diagnostics
    if o.file.canSave then
      let text := o.file.text
      match s.store.replace h.disk name text o.version with
      | (.ok version, disk) =>
        (.ok (), s.put { o with version := version, savedText := text },
          s.record name .saved diagnostics none { h with disk := disk })
      | (.error e, disk) =>
        (.error e, s, s.record name .failed diagnostics (some e.message) { h with disk := disk })
    else
      (.error (.invalid name diagnostics), s, s.record name .rejected diagnostics none h)

/-! ## preview -/

def mainFiles (s : Session) : List PolicyFile :=
  ((s.files.filter fun n => !PolicyName.isInclude n).filterMap s.find?).map OpenFile.file

/-- The deciding rule of a request among the open files; an include line stands for an open file,
or for a stored one that is not open. -/
def preview (s : Session) (d : Disk) (request : Request) : Except Fault (Option Match) :=
  explain (s.store.includes d (s.opened.map OpenFile.file) s.allowIncludes) request s.mainFiles

end Session

end QubePolicy
