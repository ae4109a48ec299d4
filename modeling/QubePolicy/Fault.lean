import QubePolicy.Diagnostic
import QubePolicy.FileTree
import QubePolicy.Number

/-!
# Faults

Why an operation has no result.

* `Misuse`         an operation is asked for what makes no sense;
* `StorageFault`   a stored file is not as it has to be, or cannot be reached;
* `Fault`          one of these, a file that may not be saved, or a refusal of the file system;
* `Fault.message`, `Fault.describe`   the wording.
-/

namespace QubePolicy

/-! ## misuse -/

inductive Misuse where
  | indexOutOfRange (index : Number) (file : String) (greatest : Int)
  | noSuchLine (index : Number) (file : String)
  | lineBreak (file : String)
  | invalidFileName (name : String)
  | alreadyOpen (file : String) (allowIncludes : Bool)
  | noTokens
  | notARule (line : Nat) (file : String)
  | invalidValue (field : Rule.Field) (value : String)
  | notOpen (file : String)
  deriving DecidableEq, Repr

def Misuse.message : Misuse → String
  | .indexOutOfRange index file greatest =>
    s!"Line index {index.render} is out of range for {file} (0-{greatest})"
  | .noSuchLine index file => s!"Line index {index.render} is out of range for {file}"
  | .lineBreak file => s!"A line of {file} cannot contain a line break"
  | .invalidFileName name => s!"Invalid policy file name: {name}"
  | .alreadyOpen file allowIncludes =>
    s!"Policy file {file} is already open with allowIncludes={allowIncludes}"
  | .noTokens => "A rule needs at least one token"
  | .notARule line file => s!"Line {line} of {file} is not a rule"
  | .invalidValue field value => s!"Invalid value for {field.label}: \"{value}\""
  | .notOpen file => s!"Policy file {file} is not open"

/-! ## storage -/

inductive StorageFault where
  | missing
  | alreadyThere
  /-- someone else has written the file since it was read -/
  | modified
  | unreadable (cause : SystemFault)
  | unwritable (cause : SystemFault)
  deriving DecidableEq, Repr

namespace StorageFault

def message (file : String) : StorageFault → String
  | .missing => s!"Policy file {file} not found"
  | .alreadyThere => s!"Policy file {file} already exists"
  | .modified => s!"Policy file {file} was modified since it was loaded"
  | .unreadable cause => s!"Cannot read {file}: {cause.message}"
  | .unwritable cause => s!"Cannot write {file}: {cause.message}"

def cause? : StorageFault → Option SystemFault
  | .unreadable cause | .unwritable cause => some cause
  | _ => none

end StorageFault

/-! ## faults -/

inductive Fault where
  | misuse (misuse : Misuse)
  | storage (file : String) (fault : StorageFault)
  | invalid (file : String) (diagnostics : List Diagnostic)
  | system (fault : SystemFault)
  deriving DecidableEq, Repr

namespace Fault

def message : Fault → String
  | .misuse m => m.message
  | .storage file f => f.message file
  | .invalid file diagnostics =>
    s!"Cannot save {file}: {Diagnostic.errorCount diagnostics} error(s) found"
  | .system f => f.message

/-- The code of a fault of the policy library; the file system has none. -/
def code? : Fault → Option String
  | .misuse (.notOpen _) => some "not-found"
  | .misuse _ => some "invalid-argument"
  | .storage _ .missing => some "not-found"
  | .storage _ .alreadyThere => some "already-exists"
  | .storage _ .modified => some "conflict"
  | .storage _ (.unreadable _) | .storage _ (.unwritable _) => some "io-error"
  | .invalid _ _ => some "validation-failed"
  | .system _ => none

def title : Fault → String
  | .misuse _ => "PolicyEditError"
  | .storage _ _ => "PolicyIOError"
  | .invalid _ _ => "PolicyValidationError"
  | .system _ => "OSError"

def describe (f : Fault) : String :=
  match f.code? with
  | some code => s!"{f.title} [{code}]: {f.message}"
  | none => f.message

end Fault

end QubePolicy
