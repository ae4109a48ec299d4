import QubePolicy.Proofs.AuditLog.Owned
import QubePolicy.Proofs.Session.Sharing

/-!
# Commands that fail

A command that fails leaves the session as it is and, but for the files of the audit log, every file.
No command touches the open files of other names.

* `Session.Command.named?`       the file that a command is about;
* `Session.find?_run_of_ne`      the other open files stay as they are;
* `Session.bytes?_of_save_eq_error`   a save that fails changes the files of the audit log only;
* `Session.run_atomic`           a command that fails changes nothing else;
* `Workspace.rejected_moves_policy`   a directory that is taken for the log is moved with the policy
                                 files in it.
-/

namespace QubePolicy

namespace Session

variable {s s' : Session} {host host' : Host} {d : Disk} {name other : String}

def Command.named? : Command → Option String
  | .open name _ | .create name _ | .close name | .reset name | .file name | .diagnostics name
  | .isModified name | .canSave name | .setText name _ | .insertRule name _ _
  | .replaceLine name _ _ | .moveRule name _ _ | .deleteLine name _ | .editField name _ _ _
  | .save name => some name
  | .files | .preview _ => none

theorem Command.named?_of_edited? {c : Command} (h : c.edited? = some name) :
    c.named? = some name := by
  cases c with
  | setText | insertRule | replaceLine | moveRule | deleteLine | editField => exact h
  | _ => cases h

/-! ## other open files -/

theorem Effect.find?_of_ne {c : Command} (h : Effect s d c s') (hother : c.named? ≠ some other) :
    s'.find? other = s.find? other := by
  cases h with
  | asked | held => rfl
  | @opened name _ o hnone ho =>
    obtain ⟨text, -, rfl⟩ := loaded_eq_ok_iff.mp ho
    exact find?_put_of_ne rfl fun hsame => hother (congrArg some hsame.symm)
  | created => exact find?_put_of_ne rfl fun hsame => hother (congrArg some hsame.symm)
  | @closed name o ho =>
    have hne : other ≠ name := fun hsame => hother (congrArg some hsame.symm)
    rw [find?_remove, if_neg hne]
  | emptied => exact find?_put_of_ne rfl fun hsame => hother (congrArg some hsame.symm)
  | reloaded ho hnew ho' =>
    obtain ⟨text, -, rfl⟩ := loaded_eq_ok_iff.mp ho'
    exact find?_put_of_ne rfl fun hsame => hother (congrArg some hsame.symm)
  | @edited c name o f hc ho hf =>
    have hname : f.name = name := hf.name.trans (name_of_find? ho)
    refine find?_put_of_ne hname fun hsame => hother ?_
    rw [Command.named?_of_edited? hc, hsame]

/-- **The open files that a command is not about stay as they are**, whether it succeeds or not. -/
theorem find?_run_of_ne {c : Command} (hother : c.named? ≠ some other) :
    (s.run host c).2.1.find? other = s.find? other := by
  rcases hrun : s.run host c with ⟨result, s', host'⟩
  cases result with
  | error e => rw [session_of_run_eq_error hrun]
  | ok reply =>
    rcases run_eq_ok hrun with ⟨name, rfl, hsave⟩ | ⟨-, heffect⟩
    · obtain ⟨o, p, written, ho, -, -, -, -, rfl, -⟩ := save_eq_ok hsave
      have hname : o.file.name = name := name_of_find? ho
      exact find?_put_of_ne hname fun hsame => hother (congrArg some hsame.symm)
    · exact heffect.find?_of_ne hother

/-! ## files -/

/-- The place belongs to the audit log of the session, if there is one. -/
def AuditOwns (s : Session) (d : Disk) (now : Instant) (q : Path) : Prop :=
  ∃ a, s.audit = some a ∧ a.Owns d now q

theorem bytes?_record_of_not_owns {q : Path} (hq : ¬s.AuditOwns host.disk host.now q)
    (file : String) (outcome : AuditLog.Outcome) (diagnostics : List Diagnostic)
    (reason : Option String) :
    (s.record file outcome diagnostics reason host).disk.bytes? q = host.disk.bytes? q := by
  unfold record
  cases haudit : s.audit with
  | none => rfl
  | some a => exact AuditLog.bytes?_log _ _ fun howns => hq ⟨a, haudit, howns⟩

theorem bytes?_of_replace_eq_error {store : Store} {text : String} {expected : Version} {e : Fault}
    {left : Disk} (h : store.replace d name text expected = (.error e, left)) (q : Path) :
    left.bytes? q = d.bytes? q := by
  rcases Store.replace_eq_error h with ⟨-, rfl⟩ | ⟨p, cause, -, -, hwrite⟩
  · rfl
  · rcases Store.writeAt_eq_error hwrite with rfl | hmake
    · rfl
    · exact Disk.bytes?_makeDirectories hmake q

theorem bytes?_of_save_eq_error {e : Fault} (h : s.save host name = (.error e, s', host')) {q : Path}
    (hq : ¬s.AuditOwns host.disk host.now q) : host'.disk.bytes? q = host.disk.bytes? q := by
  obtain ⟨-, ⟨-, rfl⟩ | ⟨o, outcome, reason, left, -, rfl, hleft⟩⟩ := save_eq_error h
  · rfl
  · have hfiles : ∀ r, left.bytes? r = host.disk.bytes? r := by
      rcases hleft with ⟨-, rfl⟩ | ⟨-, hreplace⟩
      · exact fun _ => rfl
      · exact bytes?_of_replace_eq_error hreplace
    have hq' : ¬s.AuditOwns left host.now q := fun ⟨a, haudit, howns⟩ =>
      hq ⟨a, haudit, howns.of_bytes? hfiles⟩
    rw [bytes?_record_of_not_owns hq', hfiles]

/-- **Commands that fail are atomic.** The session is as it was, and so is every file that does not
belong to the audit log. Whether a command fails or not, the open files that it is not about are as
they were. -/
theorem run_atomic (s : Session) (host : Host) (c : Command) :
    (∀ other, c.named? ≠ some other → (s.run host c).2.1.find? other = s.find? other) ∧
    ∀ e s' host', s.run host c = (.error e, s', host') →
      s' = s ∧ ∀ q, ¬s.AuditOwns host.disk host.now q →
        host'.disk.bytes? q = host.disk.bytes? q := by
  refine ⟨fun other hother => find?_run_of_ne hother, fun e s' host' h => ?_⟩
  obtain ⟨hs, hhost⟩ := run_eq_error h
  refine ⟨hs, fun q hq => ?_⟩
  rcases hhost with rfl | ⟨name, -, hsave⟩
  · rfl
  · exact bytes?_of_save_eq_error hsave hq

end Session

namespace Workspace

/-! ## a save that is rejected -/

def malformedSession (audit : AuditLog) : Workspace Unit :=
  Workspace.run
    { sessions _ := ⟨policyStore, some audit, true, []⟩
      host := ⟨⟨.directory [("policy", .directory
        [("30-user.policy", .file (Text.Utf8.encode "bad\n"))])]⟩, ⟨0⟩, []⟩ }
    [.command () (.open "30-user" none)]

def malformedPlace : Path := ⟨["policy", "30-user.policy"]⟩

theorem run_atomic_malformed :
    let w := malformedSession ⟨"/log/audit", 0⟩
    ∃ e s' host', (w.sessions ()).run w.host (.save "30-user") = (.error e, s', host') ∧
      s' = w.sessions () ∧ host'.disk.bytes? malformedPlace = some (Text.Utf8.encode "bad\n") := by
  intro w
  obtain ⟨hfails, hplace, haside, hhollow, hbytes⟩ :
      ((w.sessions ()).run w.host (.save "30-user")).1.isOk = false ∧
      malformedPlace ≠ (AuditLog.mk "/log/audit" 0).place ∧
      malformedPlace ≠ (AuditLog.mk "/log/audit" 0).asidePlace w.host.now ∧
      w.host.disk.look (AuditLog.mk "/log/audit" 0).place ≠ some none ∧
      w.host.disk.bytes? malformedPlace = some (Text.Utf8.encode "bad\n") := by
    decide +kernel
  obtain ⟨e, ⟨s', host'⟩, hrun⟩ := Except.exists_of_isOk_eq_false hfails
  obtain ⟨hs, hfiles⟩ := (Session.run_atomic (w.sessions ()) w.host (.save "30-user")).2 e s' host'
    hrun
  refine ⟨e, s', host', hrun, hs, (hfiles malformedPlace ?_).trans hbytes⟩
  rintro ⟨a, haudit, howns⟩
  obtain rfl : AuditLog.mk "/log/audit" 0 = a := Option.some.inj haudit
  rcases howns with hlog | haside' | ⟨hfull, -⟩
  · exact hplace hlog
  · exact haside haside'
  · exact hfull (AuditLog.hollow_of_look hhollow)

/-- **A directory that is taken for the log is moved aside with the files in it**: the save is
rejected, and the policy file, which is neither the log nor a log moved aside, is gone. -/
theorem rejected_moves_policy :
    let a : AuditLog := ⟨"/policy", 0⟩
    let w := malformedSession a
    ∃ e s' host', (w.sessions ()).run w.host (.save "30-user") = (.error e, s', host') ∧
      malformedPlace ≠ a.place ∧ malformedPlace ≠ a.asidePlace w.host.now ∧
      w.host.disk.bytes? malformedPlace = some (Text.Utf8.encode "bad\n") ∧
      host'.disk.bytes? malformedPlace = none := by
  intro a w
  obtain ⟨hfails, hplace, haside, hbefore, hafter⟩ :
      ((w.sessions ()).run w.host (.save "30-user")).1.isOk = false ∧
      malformedPlace ≠ a.place ∧ malformedPlace ≠ a.asidePlace w.host.now ∧
      w.host.disk.bytes? malformedPlace = some (Text.Utf8.encode "bad\n") ∧
      ((w.sessions ()).run w.host (.save "30-user")).2.2.disk.bytes? malformedPlace = none := by
    decide +kernel
  obtain ⟨e, ⟨s', host'⟩, hrun⟩ := Except.exists_of_isOk_eq_false hfails
  rw [hrun] at hafter
  exact ⟨e, s', host', hrun, hplace, haside, hbefore, hafter⟩

end Workspace

end QubePolicy
