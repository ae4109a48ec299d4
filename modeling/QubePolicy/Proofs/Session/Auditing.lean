import QubePolicy.Proofs.PolicyFile.Errors
import QubePolicy.Proofs.Session.Preview

/-!
# Saving with an audit log

A save of an open file ends in one of three ways. The audit log is told of it once, behind all that
the save does, so a session without one does the same.

* `Session.Exit`            the three ways, with what is left behind;
* `Session.exists_exit`     a save of an open file has one of them;
* `Session.Exit.save_eq`    and tells the log of it, if there is one;
* `Session.Tells`           what an entry says of a save;
* `Session.save_audited`    with an audit log one entry is written, and the rest is as without one.
-/

namespace QubePolicy

namespace Session

variable {s s' : Session} {host : Host} {name : String} {o : OpenFile} {a : AuditLog}

/-! ## ways for a save to end -/

/-- How a save of an open file ends: its result and the session afterwards, what the log is told,
and the disk before it is told. -/
inductive Exit (s : Session) (host : Host) (name : String) (o : OpenFile) :
    Except Fault Unit → Session → AuditLog.Outcome → Option String → Disk → Prop where
  | rejected : o.file.canSave = false →
      Exit s host name o (.error (.invalid name o.file.diagnostics)) s .rejected none host.disk
  | failed {e : Fault} {left : Disk} : o.file.canSave = true →
      s.store.replace host.disk name o.file.text o.version = (.error e, left) →
      Exit s host name o (.error e) s .failed (some e.message) left
  | saved {v : Version} {written : Disk} : o.file.canSave = true →
      s.store.replace host.disk name o.file.text o.version = (.ok v, written) →
      Exit s host name o (.ok ()) (s.put { o with version := v, savedText := o.file.text }) .saved
        none written

variable {result : Except Fault Unit} {outcome : AuditLog.Outcome} {reason : Option String}
  {left : Disk}

theorem exists_exit (s : Session) (host : Host) (name : String) (o : OpenFile) :
    ∃ result s' outcome reason left, Exit s host name o result s' outcome reason left := by
  cases hcan : o.file.canSave with
  | false => exact ⟨_, _, _, _, _, .rejected hcan⟩
  | true =>
    rcases hreplace : s.store.replace host.disk name o.file.text o.version with ⟨e | v, left⟩
    · exact ⟨_, _, _, _, _, .failed hcan hreplace⟩
    · exact ⟨_, _, _, _, _, .saved hcan hreplace⟩

namespace Exit

/-- **A save of an open file ends as it has to**, and the log is told once. -/
theorem save_eq (h : Exit s host name o result s' outcome reason left)
    (ho : s.find? name = some o) :
    s.save host name = (result, s',
      s.record name outcome o.file.diagnostics reason { host with disk := left }) := by
  unfold save
  rw [entry_eq_ok_iff.mpr ho]
  cases h with
  | rejected hcan => simp only [hcan, Bool.false_eq_true, if_false]
  | failed hcan hreplace => simp only [hcan, if_true, hreplace]
  | saved hcan hreplace => simp only [hcan, if_true, hreplace]

end Exit

/-! ## sessions without a log -/

def unaudited (s : Session) : Session := { s with audit := none }

def audited (s : Session) (a : AuditLog) : Session := { s with audit := some a }

theorem audited_unaudited (haudit : s.audit = some a) : s.unaudited.audited a = s := by
  rw [unaudited, audited, ← haudit]

theorem Exit.unaudited (h : Exit s host name o result s' outcome reason left) :
    Exit s.unaudited host name o result s'.unaudited outcome reason left := by
  cases h with
  | rejected hcan => exact .rejected hcan
  | failed hcan hreplace => exact .failed hcan hreplace
  | saved hcan hreplace => exact .saved hcan hreplace

theorem Exit.audit_eq (h : Exit s host name o result s' outcome reason left) :
    s'.audit = s.audit := by
  cases h <;> rfl

/-! ## what the log is told -/

/-- What the entry says of a save of an open file with this result: how it ended, why the store did
not take it, and how many of the diagnostics are errors. -/
structure Tells (s : Session) (host : Host) (name : String) (o : OpenFile)
    (result : Except Fault Unit) (e : AuditLog.Entry) : Prop where
  timestamp : e.timestamp = host.now.render
  file : e.file = name
  saved : e.outcome = .saved ↔ result = .ok ()
  rejected : e.outcome = .rejected ↔ ∃ ds, result = .error (.invalid name ds)
  failed : e.outcome = .failed ↔ ∃ fault left, o.file.canSave = true ∧
    s.store.replace host.disk name o.file.text o.version = (.error fault, left) ∧
    result = .error fault ∧ e.reason = some fault.message
  reason : e.outcome ≠ .failed → e.reason = none
  errors : e.errors = .whole (o.file.diagnostics.filter (·.isError)).length
  warnings : e.warnings = .whole (o.file.diagnostics.filter (!·.isError)).length
  faultless : e.outcome ≠ .rejected → e.errors = .whole 0
  faulty : e.outcome = .rejected → ∃ n : Nat, 1 ≤ n ∧ e.errors = .whole n

theorem errorCount_eq (ds : List Diagnostic) :
    Diagnostic.errorCount ds = (ds.filter (·.isError)).length :=
  List.countP_eq_length_filter

theorem warningCount_eq (ds : List Diagnostic) :
    Diagnostic.warningCount ds = (ds.filter (!·.isError)).length := by
  rw [Diagnostic.warningCount, errorCount_eq]
  have hsum := List.length_eq_length_filter_add (l := ds) (·.isError)
  omega

def entryOf (host : Host) (name : String) (o : OpenFile) (outcome : AuditLog.Outcome)
    (reason : Option String) : AuditLog.Entry :=
  ⟨host.now.render, name, outcome, .whole (Diagnostic.errorCount o.file.diagnostics),
    .whole (Diagnostic.warningCount o.file.diagnostics), reason⟩

/-- **What the log is told is what became of the save.** -/
theorem Exit.tells (h : Exit s host name o result s' outcome reason left) :
    Tells s host name o result (entryOf host name o outcome reason) := by
  have herrors : (entryOf host name o outcome reason).errors =
      .whole (o.file.diagnostics.filter (·.isError)).length :=
    congrArg (fun n : Nat => Number.whole n) (errorCount_eq _)
  have hwarnings : (entryOf host name o outcome reason).warnings =
      .whole (o.file.diagnostics.filter (!·.isError)).length :=
    congrArg (fun n : Nat => Number.whole n) (warningCount_eq _)
  have hclean (hcan : o.file.canSave = true) :
      (entryOf host name o outcome reason).errors = .whole 0 := by
    have hnil : o.file.diagnostics.filter (·.isError) = [] := PolicyFile.errors_eq_nil_iff.mpr hcan
    rw [herrors, hnil]
    rfl
  cases h with
  | rejected hcan =>
    refine ⟨rfl, rfl, ?_, ?_, ?_, fun _ => rfl, herrors, hwarnings, fun h => absurd rfl h,
      fun _ => ?_⟩
    · simp [entryOf]
    · simp [entryOf]
    · simp [entryOf, hcan]
    · refine ⟨_, List.length_pos_iff.mpr ?_, herrors⟩
      exact fun hnil => by simp [PolicyFile.errors_eq_nil_iff.mp hnil] at hcan
  | failed hcan hreplace =>
    refine ⟨rfl, rfl, ?_, ?_, ?_, fun h => absurd rfl h, herrors, hwarnings, fun _ => hclean hcan,
      nofun⟩
    · simp [entryOf]
    · simp [entryOf, Store.ne_invalid_of_replace hreplace]
    · simp [entryOf, hcan, hreplace]
  | saved hcan hreplace =>
    refine ⟨rfl, rfl, ?_, ?_, ?_, fun _ => rfl, herrors, hwarnings, fun _ => hclean hcan, nofun⟩
    · simp [entryOf]
    · simp [entryOf]
    · simp [entryOf]

/-! ## the same save with a log and without -/

/-- **A save is told to the audit log once, and the log changes nothing else.** One entry is
written, behind all that the save does without a log: the result and the session are the same,
whatever the log can or cannot do, and so are the policy files, if the log lies outside the store. -/
theorem save_audited (haudit : s.audit = some a) (ho : s.find? name = some o) (host : Host) :
    ∃ result s' plain e, s.unaudited.save host name = (result, s', plain) ∧
      s.save host name = (result, s'.audited a, a.log AuditLog.Entry.Member.all e plain) ∧
      Tells s host name o result e ∧
      (a.Outside s.store host.now → (∀ other q, s.store.path other = .ok q →
          (a.log AuditLog.Entry.Member.all e plain).disk.bytes? q = plain.disk.bytes? q) ∧
        ∀ directory ∈ s.store.directories,
          (a.log AuditLog.Entry.Member.all e plain).disk.listing directory =
            plain.disk.listing directory) := by
  obtain ⟨result, s', outcome, reason, left, hexit⟩ := exists_exit s host name o
  have hplain := hexit.unaudited.save_eq ho
  have hsave := hexit.save_eq ho
  rw [record, haudit] at hsave
  refine ⟨result, s'.unaudited, { host with disk := left }, entryOf host name o outcome reason,
    hplain, ?_, hexit.tells, fun hout => ⟨?_, ?_⟩⟩
  · rw [audited_unaudited (hexit.audit_eq.trans haudit), hsave]
    rfl
  · intro other q hq
    exact AuditLog.bytes?_record name outcome o.file.diagnostics reason
      (h := { host with disk := left }) (hout.path hq)
  · intro directory hdirectory
    exact AuditLog.listing_record name outcome o.file.diagnostics reason
      (h := { host with disk := left }) (hout directory hdirectory)

end Session

namespace Workspace

/-! ## a log that cannot be written -/

/-- A host with one policy file, and a file where the directory of the log is to be. -/
def blockedHost (text : String) : Host :=
  ⟨⟨.directory [("log", .file []), ("policy", .directory
    [("30-user.policy", .file (Text.Utf8.encode text))])]⟩, ⟨0⟩, []⟩

def outdatedSession : Session :=
  (Workspace.run ⟨fun _ => ⟨policyStore, some ⟨"/log/audit", 40⟩, true, []⟩, blockedHost "# one\n"⟩
    [.command () (.open "30-user" none)]).sessions ()

theorem save_audited_blocked : ∃ o result s' plain e,
    outdatedSession.audit = some ⟨"/log/audit", 40⟩ ∧
    outdatedSession.find? "30-user" = some o ∧
    outdatedSession.unaudited.save (blockedHost "# two\n") "30-user" = (result, s', plain) ∧
    outdatedSession.save (blockedHost "# two\n") "30-user" = (result, s'.audited ⟨"/log/audit", 40⟩,
      AuditLog.log ⟨"/log/audit", 40⟩ AuditLog.Entry.Member.all e plain) ∧
    e.outcome = .failed ∧ e.reason = some "Policy file 30-user was modified since it was loaded" ∧
    (AuditLog.log ⟨"/log/audit", 40⟩ AuditLog.Entry.Member.all e plain).console =
      [AuditLog.failure "write" .notDirectory] ∧
    ∀ other q, policyStore.path other = .ok q →
      (AuditLog.log ⟨"/log/audit", 40⟩ AuditLog.Entry.Member.all e plain).disk.bytes? q =
        plain.disk.bytes? q := by
  obtain ⟨hsome, hresult, hconsole⟩ : (outdatedSession.find? "30-user").isSome = true ∧
      (outdatedSession.save (blockedHost "# two\n") "30-user").1 =
        .error (.storage "30-user" .modified) ∧
      (outdatedSession.save (blockedHost "# two\n") "30-user").2.2.console =
        [AuditLog.failure "write" .notDirectory] := by
    decide +kernel
  obtain ⟨o, ho⟩ := Option.isSome_iff_exists.mp hsome
  obtain ⟨result, s', plain, e, hplain, hsave, htells, hfiles⟩ :=
    Session.save_audited (a := ⟨"/log/audit", 40⟩) rfl ho (blockedHost "# two\n")
  rw [hsave] at hresult hconsole
  obtain rfl : result = .error (.storage "30-user" .modified) := hresult
  have houtcome : e.outcome = .failed := by
    cases h : e.outcome with
    | saved => cases htells.saved.mp h
    | rejected =>
      obtain ⟨ds, hds⟩ := htells.rejected.mp h
      cases hds
    | failed => rfl
  obtain ⟨fault, left, -, -, hfault, hreason⟩ := htells.failed.mp houtcome
  cases hfault
  have hout : (AuditLog.mk "/log/audit" 40).Outside policyStore ⟨0⟩ := clear_policyStore.outside
  exact ⟨o, _, s', plain, e, rfl, ho, hplain, hsave, houtcome, hreason, hconsole, (hfiles hout).1⟩

end Workspace

end QubePolicy
