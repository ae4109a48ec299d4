import QubePolicy.Session

/-!
# Commands of a session

* `Session.Command`   everything that can be asked of a session;
* `Session.Reply`     what a command answers;
* `Session.run`       a command carried out.
-/

namespace QubePolicy.Session

inductive Command where
  | open (name : String) (allowIncludes : Option Bool)
  | create (name : String) (allowIncludes : Option Bool)
  | close (name : String)
  | reset (name : String)
  | files
  | file (name : String)
  | diagnostics (name : String)
  | isModified (name : String)
  | canSave (name : String)
  | setText (name text : String)
  | insertRule (name : String) (index : Number) (tokens : List String)
  | replaceLine (name : String) (index : Number) (raw : String)
  | moveRule (name : String) (source target : Number)
  | deleteLine (name : String) (index : Number)
  | editField (name : String) (index : Number) (field : Rule.Field) (value : String)
  | save (name : String)
  | preview (request : Request)

inductive Reply where
  | done
  | file (file : PolicyFile)
  | names (names : List String)
  | diagnostics (diagnostics : List Diagnostic)
  | flag (flag : Bool)
  | found (found : Option Match)

/-- The reply to a command other than saving, and the session after it. -/
def answer (s : Session) (d : Disk) : Command → Except Fault Reply × Session
  | .open name allowIncludes => told .file (s.open d name allowIncludes)
  | .create name allowIncludes => told .file (s.create d name allowIncludes)
  | .close name => told (fun _ => .done) (s.close name)
  | .reset name => told .diagnostics (s.reset d name)
  | .files => (.ok (.names s.files), s)
  | .file name => ((s.entry name).map fun o => .file o.file, s)
  | .diagnostics name => ((s.entry name).map fun o => .diagnostics o.file.diagnostics, s)
  | .isModified name => ((s.entry name).map fun o => .flag o.isModified, s)
  | .canSave name => ((s.entry name).map fun o => .flag o.file.canSave, s)
  | .setText name text => told .diagnostics (s.setText name text)
  | .insertRule name index tokens => told .diagnostics (s.insertRule name index tokens)
  | .replaceLine name index raw => told .diagnostics (s.edit name (·.replaceLine index raw))
  | .moveRule name source target => told .diagnostics (s.edit name (·.moveLine source target))
  | .deleteLine name index => told .diagnostics (s.edit name (·.deleteLine index))
  | .editField name index field value =>
    told .diagnostics (s.edit name (·.editField index field value))
  | .save _ => (.ok .done, s)
  | .preview request => ((s.preview d request).map .found, s)
where
  told {α : Type} (reply : α → Reply) (outcome : Except Fault α × Session) :
      Except Fault Reply × Session :=
    (outcome.1.map reply, outcome.2)

def run (s : Session) (h : Host) : Command → Except Fault Reply × Session × Host
  | .save name =>
    let (result, s, h) := s.save h name
    (result.map fun _ => .done, s, h)
  | command =>
    let (reply, s) := s.answer h.disk command
    (reply, s, h)

end QubePolicy.Session
