import QubePolicy.Proofs.AuditLog.Outside
import QubePolicy.Proofs.PolicyFile.Errors
import QubePolicy.Proofs.PolicyFile.Reload
import QubePolicy.Proofs.Session.Invariants
import QubePolicy.Proofs.Text.Utf8

/-!
# What gets past saving

Only a file without errors is written, and what is read back from the disk is that file.

* `Session.bytes?_record`    telling the audit log changes no policy file;
* `PolicyFile.ReadsBackAs`   a text is read as a file without errors and with the rules of another one;
* `Session.save_reads_back`  after a save that succeeds the stored text is that of the open file;
* `Session.save_refuses`     a file with a malformed line is refused, and no policy file changes;
* `Workspace.save_gate`      both hold at any time, whatever has happened.
-/

namespace QubePolicy

/-! ## files read back -/

/-- The text, read with the options of the file, is without malformed lines and errors and has the
rules of the file, with their numbers. -/
structure PolicyFile.ReadsBackAs (text : String) (f : PolicyFile) : Prop where
  wellFormed : ∀ l ∈ (ofText f.name f.allowIncludes text).lines, l.content.isMalformed = false
  errors : (ofText f.name f.allowIncludes text).errors = []
  rules : (ofText f.name f.allowIncludes text).rules = f.rules

theorem PolicyFile.readsBackAs {f : PolicyFile} (hplain : f.Plain) (hcan : f.canSave = true) :
    ReadsBackAs f.text f := by
  have hlines : ∀ l ∈ (f.withText f.text).lines, l.content.isMalformed = false := fun l hl =>
    canSave_iff.mp hcan l (mem_lines_of_reload hplain hl)
  exact ⟨hlines, errors_eq_nil_iff.mpr (canSave_iff.mpr hlines), rules_reload hplain⟩

namespace Session

variable {s s' : Session} {host host' : Host} {name : String} {o : OpenFile} {p : Path}

def AuditsOutside (s : Session) (now : Instant) : Prop :=
  ∀ a, s.audit = some a → a.Outside s.store now

theorem bytes?_record (host : Host) (hout : s.AuditsOutside host.now)
    (hp : s.store.path name = .ok p) (file : String) (outcome : AuditLog.Outcome)
    (diagnostics : List Diagnostic) (reason : Option String) :
    (s.record file outcome diagnostics reason host).disk.bytes? p = host.disk.bytes? p := by
  unfold record
  cases haudit : s.audit with
  | none => rfl
  | some a => exact AuditLog.bytes?_record file outcome diagnostics reason ((hout a haudit).path hp)

/-! ## saving -/

/-- **After a save that succeeds the stored text is that of the open file.** -/
theorem save_reads_back (hplain : s.Plain) (hout : s.AuditsOutside host.now)
    (h : s.save host name = (.ok (), s', host')) :
    ∃ o o' p, s.find? name = some o ∧ s'.find? name = some o' ∧ o'.file = o.file ∧
      s.store.path name = .ok p ∧ host'.disk.readText p = .ok o.file.text ∧
      PolicyFile.ReadsBackAs o.file.text o.file := by
  obtain ⟨o, p, written, ho, hcan, hp, -, hwritten, rfl, rfl⟩ := save_eq_ok h
  have hname : o.file.name = name := name_of_find? ho
  refine ⟨o, _, p, ho, find?_put_self s hname, rfl, hp, ?_,
    PolicyFile.readsBackAs (hplain name o ho) hcan⟩
  have hbytes : written.bytes? p = some (Text.Utf8.encode o.file.text) := by
    rw [Store.bytes?_writeAt hwritten, if_pos rfl]
  have hrecorded := bytes?_record { host with disk := written } hout hp name .saved
    o.file.diagnostics none
  rw [Disk.readText_of_bytes? (hrecorded.trans hbytes), Text.Utf8.decode_encode]

/-- **A file with a malformed line is refused**, with all its diagnostics, and no policy file
changes. -/
theorem save_refuses (hout : s.AuditsOutside host.now) (ho : s.find? name = some o)
    (hmalformed : ∃ l ∈ o.file.lines, l.content.isMalformed = true) :
    ∃ host', s.save host name = (.error (.invalid name o.file.diagnostics), s, host') ∧
      (∃ d ∈ o.file.diagnostics, d.isError = true) ∧
      ∀ other q, s.store.path other = .ok q → host'.disk.bytes? q = host.disk.bytes? q := by
  have hcan : o.file.canSave = false := by
    cases hcan : o.file.canSave with
    | false => rfl
    | true =>
      obtain ⟨l, hl, hbad⟩ := hmalformed
      rw [PolicyFile.canSave_iff.mp hcan l hl] at hbad
      cases hbad
  refine ⟨s.record name .rejected o.file.diagnostics none host, ?_,
    PolicyFile.exists_error_of_not_canSave hcan, fun other q hq => bytes?_record host hout hq _ _ _ _⟩
  unfold save
  rw [entry_eq_ok_iff.mpr ho]
  simp only [hcan, Bool.false_eq_true, if_false]

end Session

namespace Workspace

variable {ι : Type} [DecidableEq ι] {store : Store}

/-- **Only files without errors are saved, and they are read back as they are.** After all events,
a save that succeeds leaves the text of the open file on the disk, and that text is read without
errors and with the same rules; a file with a malformed line is refused with its diagnostics, and no
policy file changes. -/
theorem save_gate {w : Workspace ι} (hw : w.Fresh store) (es : List (Event ι)) (i : ι)
    (hout : ∀ a, (w.sessions i).audit = some a → a.Outside store (w.run es).host.now)
    (name : String) :
    let s := (w.run es).sessions i
    let host := (w.run es).host
    (∀ s' host', s.save host name = (.ok (), s', host') →
      ∃ o o' p, s.find? name = some o ∧ s'.find? name = some o' ∧ o'.file = o.file ∧
        store.path name = .ok p ∧ host'.disk.readText p = .ok o.file.text ∧
        PolicyFile.ReadsBackAs o.file.text o.file) ∧
    ∀ o, s.find? name = some o → (∃ l ∈ o.file.lines, l.content.isMalformed = true) →
      ∃ host', s.save host name = (.error (.invalid name o.file.diagnostics), s, host') ∧
        (∃ d ∈ o.file.diagnostics, d.isError = true) ∧
        ∀ other q, store.path other = .ok q → host'.disk.bytes? q = host.disk.bytes? q := by
  intro s host
  obtain ⟨hstore, haudit⟩ : s.store = store ∧ s.audit = (w.sessions i).audit :=
    holds_after_run (Session.invariant_places store (w.sessions i).audit) ⟨(hw i).1, rfl⟩ es
  have hplain : s.Plain := holds_after_run Session.invariant_plain
    (fun name o hfind => by
      rw [Session.find?, (hw i).2] at hfind
      cases hfind) es
  have hout' : s.AuditsOutside host.now := by
    intro a ha
    rw [hstore]
    exact hout a (haudit ▸ ha)
  subst hstore
  exact ⟨fun s' host' hsave => Session.save_reads_back hplain hout' hsave,
    fun o ho hmalformed => Session.save_refuses hout' ho hmalformed⟩

/-! ## one file with errors and one without -/

def auditedSession : Workspace Unit where
  sessions _ := ⟨policyStore, some ⟨"/log/audit", 40⟩, true, []⟩
  host := ⟨⟨.directory [("policy", .directory
    [("30-user.policy", .file (Text.Utf8.encode "# one\n"))])]⟩, ⟨0⟩, []⟩

/-- The text of the one file lacks its last line feed, the other file lacks most of a rule. -/
def draftEvents : List (Event Unit) :=
  [.command () (.open "30-user" none), .command () (.create "include/draft" none),
    .command () (.setText "30-user" "!include include/draft\n* * work vault ask"),
    .command () (.insertRule "include/draft" (.whole 0) ["qubes.Gpg", "+sign"])]

theorem outside_drafts :
    (∀ directory ∈ policyStore.directories, (AuditLog.mk "/log/audit" 40).place.Apart directory) ∧
    ∀ directory ∈ policyStore.directories, ((AuditLog.mk "/log/audit" 40).asidePlace
      (auditedSession.run draftEvents).host.now).Apart directory :=
  ⟨by decide +kernel, by decide +kernel⟩

theorem save_gate_drafts :
    auditedSession.Fresh policyStore ∧
    (AuditLog.mk "/log/audit" 40).Outside policyStore (auditedSession.run draftEvents).host.now ∧
    (∃ (o : OpenFile) (p : Path) (s' : Session) (host' : Host),
      ((auditedSession.run draftEvents).sessions ()).save
        (auditedSession.run draftEvents).host "30-user" = (.ok (), s', host') ∧
      host'.disk.readText p = .ok o.file.text ∧ PolicyFile.ReadsBackAs o.file.text o.file) ∧
    ∃ (o : OpenFile) (host' : Host), ((auditedSession.run draftEvents).sessions ()).save
        (auditedSession.run draftEvents).host "include/draft" =
      (.error (.invalid "include/draft" o.file.diagnostics),
        (auditedSession.run draftEvents).sessions (), host') ∧
      ∃ d ∈ o.file.diagnostics, d.isError = true := by
  have hfresh : auditedSession.Fresh policyStore := fun _ => ⟨rfl, rfl⟩
  have hout : (AuditLog.mk "/log/audit" 40).Outside policyStore
      (auditedSession.run draftEvents).host.now :=
    fun directory hdirectory => ⟨outside_drafts.1 directory hdirectory,
      outside_drafts.2 directory hdirectory⟩
  have houts : ∀ a, (auditedSession.sessions ()).audit = some a →
      a.Outside policyStore (auditedSession.run draftEvents).host.now := by
    intro a ha
    cases ha
    exact hout
  refine ⟨hfresh, hout, ?_, ?_⟩
  · have hsave : (((auditedSession.run draftEvents).sessions ()).save
        (auditedSession.run draftEvents).host "30-user").1 = .ok () := by
      decide +kernel
    rcases hresult : ((auditedSession.run draftEvents).sessions ()).save
      (auditedSession.run draftEvents).host "30-user" with ⟨result, s', host'⟩
    rw [hresult] at hsave
    obtain rfl : result = .ok () := hsave
    obtain ⟨o, o', p, -, -, -, -, htext, hback⟩ :=
      (save_gate hfresh draftEvents () houts "30-user").1 s' host' hresult
    exact ⟨o, p, s', host', rfl, htext, hback⟩
  · have hfind : (((auditedSession.run draftEvents).sessions ()).find? "include/draft").any
        (fun o => o.file.lines.any fun l => l.content.isMalformed) = true := by
      decide +kernel
    obtain ⟨o, ho, hlines⟩ := (Option.any_eq_true _ _).mp hfind
    obtain ⟨l, hl, hbad⟩ := List.any_eq_true.mp hlines
    obtain ⟨host', hsave, hd, -⟩ :=
      (save_gate hfresh draftEvents () houts "include/draft").2 o ho ⟨l, hl, hbad⟩
    exact ⟨o, host', hsave, hd⟩

end Workspace

end QubePolicy
