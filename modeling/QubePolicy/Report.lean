import QubePolicy.Evaluation
import QubePolicy.Number
import QubePolicy.PolicyFile.Validation

/-!
# Reports

The sentences in which results are told.

* `Diagnostic.render`, `Diagnostic.summary`   the problems of a file, one to a line, and their
                                              number;
* `Request.render`, `Request.decision`        a call, and what becomes of it;
* `Console.Entry`    a piece of text printed to one of two channels;
* `Console.error`, `Console.warning`, `Console.info`   the three marked messages.
-/

namespace QubePolicy

/-! ## diagnostics -/

namespace Diagnostic

def render (file : String) (d : Diagnostic) : String :=
  let line := (Number.whole d.line).render
  let column := (Number.whole d.span.column).render
  s!"{file}:{line}:{column}: {d.severity.label}: {d.message} [{d.kind.label}]"

def summary (file : String) (ds : List Diagnostic) : String :=
  if ds.isEmpty then s!"{file}: OK"
  else s!"{file}: {errorCount ds} error(s), {warningCount ds} warning(s)"

end Diagnostic

/-! ## requests -/

def Destination.render : Destination → String
  | .unspecified => "@default"
  | .disposable none => "@dispvm"
  | .disposable (some template) => s!"@dispvm:{template.name}"
  | .qube q => q.name

namespace Request

def render (r : Request) : String :=
  s!"{r.service} +{r.argument} {r.source.name} -> {r.destination.render}"

def verdict : Decision → String
  | .grant .allow => "✅ WOULD BE ALLOWED"
  | .deny => "🚫 WOULD BE DENIED"
  | .grant .ask => "⚠️  WOULD ASK THE USER"

/-- The decision on a request; a request that no rule covers is denied. -/
def decision (r : Request) (found : Option Match) : List String :=
  let action := (found.map Match.action).getD .deny
  [verdict action.decision, s!"Request: {r.render}", s!"Action: {action.render}",
    match found with
    | some m => s!"Matched Rule: {m.file}:{m.line}: {m.rule.render}"
    | none => "Matched Rule: (none - implicit deny)"]

end Request

/-! ## console -/

namespace Console

inductive Channel where
  | out | err
  deriving DecidableEq, Repr

structure Entry where
  channel : Channel
  text : String
  deriving DecidableEq, Repr

def out (text : String) : Entry := ⟨.out, text⟩

def err (text : String) : Entry := ⟨.err, text⟩

def error (message : String) : Entry := err s!"❌ Error: {message}"

def warning (message : String) : Entry := err s!"⚠️  Warning: {message}"

def info (message : String) : Entry := out s!"ℹ️  {message}"

def diagnostics (file : String) (ds : List Diagnostic) : List Entry :=
  ds.map (fun d => out (d.render file)) ++ [out (Diagnostic.summary file ds)]

end Console

end QubePolicy
