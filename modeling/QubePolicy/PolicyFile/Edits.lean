import QubePolicy.Fault
import QubePolicy.PolicyFile

/-!
# Edits of a file

Each edit gives a new file or a reason why not.

* `PolicyFile.insertLine`, `replaceLine`, `deleteLine`   an edit at one index;
* `PolicyFile.moveLine`   a line taken out and put in again where it ends up at the second index.

An index counts lines from 0. It may be any number, and is refused unless it is a natural one
in its range; a line with a line feed in it is refused too, for it would be read back as two.
-/

namespace QubePolicy.PolicyFile

/-! ## checks -/

def checkIndex (f : PolicyFile) (index : Number) (bound : Nat) : Except Fault Nat :=
  match index.toNat? with
  | some i => if i < bound then .ok i else refuse
  | none => refuse
where
  refuse := .error (.misuse (.indexOutOfRange index f.name (bound - 1)))

def checkSingleLine (f : PolicyFile) (raw : String) : Except Fault Unit :=
  if raw.toList.contains '\n' then .error (.misuse (.lineBreak f.name)) else .ok ()

/-! ## edits -/

def insertLine (f : PolicyFile) (index : Number) (raw : String) : Except Fault PolicyFile := do
  let i ← f.checkIndex index (f.raws.length + 1)
  f.checkSingleLine raw
  return { f with raws := f.raws.insertIdx i raw }

def replaceLine (f : PolicyFile) (index : Number) (raw : String) : Except Fault PolicyFile := do
  let i ← f.checkIndex index f.raws.length
  f.checkSingleLine raw
  return { f with raws := f.raws.set i raw }

def deleteLine (f : PolicyFile) (index : Number) : Except Fault PolicyFile := do
  let i ← f.checkIndex index f.raws.length
  return { f with raws := f.raws.eraseIdx i }

/-- The list with the element at `i` moved to where it has the index `j`. -/
def moveAt (raws : List String) (i j : Nat) : List String :=
  match raws[i]? with
  | some raw => (raws.eraseIdx i).insertIdx j raw
  | none => raws

def moveLine (f : PolicyFile) (source target : Number) : Except Fault PolicyFile := do
  let i ← f.checkIndex source f.raws.length
  let j ← f.checkIndex target f.raws.length
  return { f with raws := moveAt f.raws i j }

end QubePolicy.PolicyFile
