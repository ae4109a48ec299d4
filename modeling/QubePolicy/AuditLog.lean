import QubePolicy.Host
import QubePolicy.Instant.Reader
import QubePolicy.Json.Reader

/-!
# The audit log

Every attempt to save a file is a line of the log. A log that has grown too large is moved aside
before the next line. No fault of the log hinders a save: it is told on the console.

* `AuditLog.Entry`     an attempt: when, which file, how it ended, and the problems of the file;
* `AuditLog`           a log at a path, and the size from which it is moved aside;
* `AuditLog.log`, `record`, `rotate`   one more line, and the log moved aside;
* `AuditLog.read`      the entries that a selection keeps, the latest last.
-/

namespace QubePolicy

structure AuditLog where
  path : String
  maxSize : Int
  deriving DecidableEq, Repr

namespace AuditLog

def defaultMaxSize : Int := 10 * 1024 * 1024

/-! ## entries -/

inductive Outcome where
  | saved
  /-- the file had errors -/
  | rejected
  /-- the store did not take it -/
  | failed
  deriving DecidableEq, Repr

namespace Outcome

def all : List Outcome := [.saved, .rejected, .failed]

def label : Outcome → String
  | .saved => "saved"
  | .rejected => "rejected"
  | .failed => "failed"

def shout : Outcome → String
  | .saved => "SAVED"
  | .rejected => "REJECTED"
  | .failed => "FAILED"

def ofLabel? (s : String) : Option Outcome := all.find? (·.label == s)

end Outcome

structure Entry where
  timestamp : String
  file : String
  outcome : Outcome
  errors : Number
  warnings : Number
  reason : Option String
  deriving DecidableEq, Repr

namespace Entry

inductive Member where
  | timestamp | file | outcome | errors | warnings | reason
  deriving DecidableEq, Repr

namespace Member

def all : List Member := [.timestamp, .file, .outcome, .errors, .warnings, .reason]

def key : Member → String
  | .timestamp => "timestamp"
  | .file => "file"
  | .outcome => "outcome"
  | .errors => "errors"
  | .warnings => "warnings"
  | .reason => "reason"

def ofKey? (s : String) : Option Member := all.find? (·.key == s)

end Member

def value? (e : Entry) : Member → Option Json
  | .timestamp => some (.string e.timestamp)
  | .file => some (.string e.file)
  | .outcome => some (.string e.outcome.label)
  | .errors => some (.number e.errors)
  | .warnings => some (.number e.warnings)
  | .reason => e.reason.map .string

def toJson (order : List Member) (e : Entry) : Json :=
  .object (order.filterMap fun m => (e.value? m).map fun v => (m.key, v))

/-- The entry of a written form. Other members do not matter, and a reason that is no text counts
as none. -/
def ofJson? (v : Json) : Option Entry := do
  let timestamp ← (← v.get? "timestamp").string?
  let file ← (← v.get? "file").string?
  let outcome ← Outcome.ofLabel? (← (← v.get? "outcome").string?)
  let errors ← (← v.get? "errors").number?
  let warnings ← (← v.get? "warnings").number?
  return ⟨timestamp, file, outcome, errors, warnings, (v.get? "reason").bind Json.string?⟩

def parse? (line : String) : Option Entry := (Json.parse? line).bind ofJson?

/-- An entry as it is listed; an empty reason is left out. -/
def render (e : Entry) : String :=
  let reason := match e.reason with
    | none | some "" => ""
    | some r => s!" ({r})"
  s!"{e.timestamp} {e.outcome.shout} {e.file}: {e.errors.render} error(s), {e.warnings.render} warning(s){reason}"

end Entry

/-! ## writing -/

/-- The size of what is at a place; a directory counts as one block. -/
def size (d : Disk) (p : Path) : Nat :=
  match d.find p with
  | .ok (.file bytes) => bytes.length
  | .ok (.directory _) => 4096
  | .error _ => 0

def isFull (a : AuditLog) (d : Disk) : Bool :=
  match d.locate a.path with
  | .ok p => d.exists? p && decide (a.maxSize ≤ size d p)
  | .error _ => false

/-- The path of the log moved aside at an instant: the instant behind it, its punctuation turned
into dashes. -/
def asidePath (a : AuditLog) (now : Instant) : String :=
  let stamp := now.render.toList.map fun c => if c = ':' || c = '.' then '-' else c
  a.path ++ "." ++ String.ofList stamp

def moveAside (a : AuditLog) (now : Instant) (d : Disk) : Except SystemFault Disk := do
  let source ← d.locate a.path
  let target ← d.locate (a.asidePath now)
  d.rename source target

def failure (what : String) (e : SystemFault) : Console.Entry :=
  Console.err s!"Warning: Failed to {what} audit log: {e.message}"

def rotate (a : AuditLog) (h : Host) : Host :=
  if h.disk.existsAt a.path then
    match a.moveAside h.now h.disk with
    | .ok d => { h with disk := d }
    | .error e => h.print [failure "rotate" e]
  else h

def appendLine (a : AuditLog) (line : String) (d : Disk) : Except SystemFault Disk := do
  let p ← d.locate a.path
  d.append p (Text.Utf8.encode (line ++ "\n"))

/-- Writes an entry as one more line, with its members in the given order. -/
def log (a : AuditLog) (order : List Entry.Member) (e : Entry) (h : Host) : Host :=
  match h.disk.makeDirectoriesAt (Path.parentText a.path) with
  | .error fault => h.print [failure "write" fault]
  | .ok made =>
    let ready := { h with disk := made }
    let ready := if a.isFull made then a.rotate ready else ready
    match a.appendLine (e.toJson order).render ready.disk with
    | .ok written => { ready with disk := written }
    | .error fault => ready.print [failure "write" fault]

def record (a : AuditLog) (file : String) (outcome : Outcome) (diagnostics : List Diagnostic)
    (reason : Option String) (h : Host) : Host :=
  a.log Entry.Member.all
    ⟨h.now.render, file, outcome, .whole (Diagnostic.errorCount diagnostics),
      .whole (Diagnostic.warningCount diagnostics), reason⟩ h

/-! ## reading -/

structure Selection where
  outcome : Option Outcome
  /-- from this instant on; no entry is from an unknown instant on -/
  since : Option (Option Instant)
  limit : Int

namespace Selection

def latest : Selection := ⟨none, none, 50⟩

/-- An entry without a readable timestamp is at no instant. -/
def keeps (s : Selection) (e : Entry) : Bool :=
  (match s.outcome with
    | some o => e.outcome == o
    | none => true) &&
  (match s.since with
    | none => true
    | some none => false
    | some (some t) => (Instant.parse? e.timestamp).any fun u => decide (t.milliseconds ≤ u.milliseconds))

/-- The entries within the limit: the last ones, as many as the limit says. Zero is no limit, and
a number below zero says how many of the first entries to leave out. -/
def cut (limit : Int) (es : List Entry) : List Entry :=
  if es.length ≤ limit then es
  else if 0 < limit then es.drop (es.length - limit.toNat)
  else es.drop (-limit).toNat

def apply (s : Selection) (es : List Entry) : List Entry := cut s.limit (es.filter s.keeps)

end Selection

def linesOf (text : String) : List String :=
  ((Text.splitAt '\n' text.toList).filter fun cs => !(Text.trim cs).isEmpty).map String.ofList

def complaints (lines : List String) : List Console.Entry :=
  (lines.filter fun l => (Entry.parse? l).isNone).map fun l =>
    Console.err s!"Warning: Invalid entry in audit log: {l}"

def read (a : AuditLog) (s : Selection) (h : Host) : List Entry × Host :=
  match h.disk.locate a.path with
  | .error _ => ([], h)
  | .ok p =>
    if h.disk.exists? p then
      match h.disk.readText p with
      | .error e => ([], h.print [failure "read" e])
      | .ok text =>
        let lines := linesOf text
        (s.apply (lines.filterMap Entry.parse?), h.print (complaints lines))
    else ([], h)

end AuditLog

end QubePolicy
