import QubePolicy.Proofs.Session.Sharing

/-!
# What holds of a session at all times

* `Session.Invariant`        a property that no command ends;
* `Workspace.holds_after_commands`   what the commands given to a session do not end;
* `Workspace.holds_after_run`    what none ends holds of it after all events if it holds at first;
* `Session.Plain`            the raw lines of all open files are lines.
-/

namespace QubePolicy

namespace Session

variable {s s' : Session} {d : Disk} {name : String} {o : OpenFile}

/-- Neither a save nor any other command ends the property. -/
structure Invariant (P : Session → Prop) : Prop where
  save {s s' : Session} {host host' : Host} {name : String} :
    P s → s.save host name = (.ok (), s', host') → P s'
  effect {s s' : Session} {d : Disk} {c : Command} : P s → Effect s d c s' → P s'

theorem Invariant.run {P : Session → Prop} (hP : Invariant P) {c : Command} {host : Host}
    (h : P s) : P (s.run host c).2.1 := by
  rcases hrun : s.run host c with ⟨result, s', host'⟩
  cases result with
  | ok reply =>
    rcases run_eq_ok hrun with ⟨name, -, hsave⟩ | ⟨-, heffect⟩
    · exact hP.save h hsave
    · exact hP.effect h heffect
  | error e =>
    rw [session_of_run_eq_error hrun]
    exact h

/-! ## plain files -/

def Plain (s : Session) : Prop := ∀ name o, s.find? name = some o → o.file.Plain

theorem Plain.put (h : s.Plain) (ho : o.file.Plain) : (s.put o).Plain := by
  intro name o' hfind
  rw [find?_put] at hfind
  split at hfind
  · cases hfind
    exact ho
  · exact h name o' hfind

theorem plain_of_loaded {allowIncludes : Bool} (h : s.loaded d name allowIncludes = .ok o) :
    o.file.Plain := by
  obtain ⟨text, -, rfl⟩ := loaded_eq_ok_iff.mp h
  exact PolicyFile.plain_ofText _ _ _

theorem invariant_plain : Invariant Plain where
  save h hsave := by
    obtain ⟨o, p, written, ho, -, -, -, -, rfl, -⟩ := save_eq_ok hsave
    exact h.put (h _ o ho)
  effect h heffect := by
    cases heffect with
    | asked | held => exact h
    | opened hnone ho => exact h.put (plain_of_loaded ho)
    | created => exact h.put (PolicyFile.plain_ofText _ _ _)
    | closed ho =>
      intro name o hfind
      rw [find?_remove] at hfind
      split at hfind
      · cases hfind
      · exact h name o hfind
    | emptied => exact h.put (PolicyFile.plain_ofText _ _ _)
    | reloaded ho hnew ho' => exact h.put (plain_of_loaded ho')
    | edited hc ho hkeeps => exact h.put (hkeeps.plain (h _ _ ho))

/-! ## store and log -/

theorem invariant_places (store : Store) (audit : Option AuditLog) :
    Invariant fun s => s.store = store ∧ s.audit = audit where
  save h hsave := by
    obtain ⟨o, p, written, -, -, -, -, -, rfl, -⟩ := save_eq_ok hsave
    exact h
  effect h heffect := by
    cases heffect <;> exact h

theorem invariant_allowIncludes (allowIncludes : Bool) :
    Invariant fun s => s.allowIncludes = allowIncludes where
  save h hsave := by
    obtain ⟨o, p, written, -, -, -, -, -, rfl, -⟩ := save_eq_ok hsave
    exact h
  effect h heffect := by
    cases heffect <;> exact h

end Session

namespace Workspace

variable {ι : Type} [DecidableEq ι] {P : Session → Prop}

/-- **What the commands given to a session do not end holds of it after all events**, if it holds at
first. -/
theorem holds_after_commands {allowed : Session.Command → Prop}
    (hstep : ∀ s host c, allowed c → P s → P (s.run host c).2.1) {w : Workspace ι} {i : ι}
    (h : P (w.sessions i)) {es : List (Event ι)} (hallowed : ∀ c, .command i c ∈ es → allowed c) :
    P ((w.run es).sessions i) := by
  induction es generalizing w with
  | nil => exact h
  | cons e es ih =>
    refine ih ?_ fun c hc => hallowed c (List.mem_cons_of_mem e hc)
    cases e with
    | outside host => exact h
    | command j c =>
      show P (Function.update w.sessions j ((w.sessions j).run w.host c).2.1 i)
      by_cases hij : i = j
      · subst hij
        rw [Function.update_self]
        exact hstep _ _ c (hallowed c List.mem_cons_self) h
      · rwa [Function.update_of_ne hij]

/-- **What no command ends holds of a session after all events**, if it holds at first. -/
theorem holds_after_run (hP : Session.Invariant P) {w : Workspace ι} {i : ι}
    (h : P (w.sessions i)) (es : List (Event ι)) : P ((w.run es).sessions i) :=
  holds_after_commands (fun _ _ _ _ hs => hP.run hs) h fun _ _ => trivial

end Workspace

end QubePolicy
