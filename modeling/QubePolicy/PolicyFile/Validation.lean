import QubePolicy.PolicyFile

/-!
# Validation

* `PolicyFile.diagnostics`   all that is wrong with a file, line by line: what is wrong with each
                             line by itself, and each rule that an earlier rule makes redundant.
-/

namespace QubePolicy.PolicyFile

def redundancy (l : Line) (earlier : Nat) : Diagnostic :=
  Finding.onLine l.number ⟨.duplicatesLine earlier, .line l.raw⟩

/-- The diagnostics of the lines after lines with rules of the keys in `seen`, each with the
number of the first such line. -/
def diagnosticsFrom (seen : List (String × Nat)) : List Line → List Diagnostic
  | [] => []
  | l :: ls =>
    match l.content with
    | .rule r =>
      match seen.lookup r.key with
      | some earlier => redundancy l earlier :: diagnosticsFrom seen ls
      | none => diagnosticsFrom ((r.key, l.number) :: seen) ls
    | _ => l.diagnostics ++ diagnosticsFrom seen ls

def diagnostics (f : PolicyFile) : List Diagnostic := diagnosticsFrom [] f.lines

def errors (f : PolicyFile) : List Diagnostic := f.diagnostics.filter Diagnostic.isError

end QubePolicy.PolicyFile
