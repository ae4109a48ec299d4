import QubePolicy.Proofs.PolicyFile.Edits
import QubePolicy.Proofs.Store.Replacing
import QubePolicy.Session.Commands

/-!
# What commands do to the open files

A command that succeeds puts at most one open file in place, or takes one away; the rest is left.

* `Session.find?_put`, `find?_remove`   the open files by name after a change of one;
* `Session.Effect`                      the ways in which a command other than saving can succeed;
* `Session.ends_answer`                 such a command has one of them or changes nothing;
* `Session.save_eq_ok`, `save_eq_error` what a save has found and leaves behind;
* `Session.session_of_run_eq_error`     a command that fails leaves the session as it is.
-/

namespace QubePolicy.Session

variable {s s' : Session} {d : Disk} {name : String} {o : OpenFile}

/-! ## open files by name -/

theorem name_of_find? (h : s.find? name = some o) : o.file.name = name := by
  simpa using List.find?_some h

theorem entry_eq_ok_iff : s.entry name = .ok o ↔ s.find? name = some o := by
  unfold entry
  cases s.find? name with
  | none => simp
  | some o' => simp

theorem find?_filter_ne (os : List OpenFile) (removed : String) :
    (os.filter (·.file.name != removed)).find? (·.file.name == name) =
      if name = removed then none else os.find? (·.file.name == name) := by
  rw [List.find?_filter]
  by_cases h : name = removed
  · rw [if_pos h, List.find?_eq_none]
    intro o _
    simp [h]
  · rw [if_neg h]
    congr 1
    funext o
    by_cases ho : o.file.name = name
    · simp [ho, h]
    · simp [ho]

theorem find?_remove (s : Session) (removed : String) :
    (s.remove removed).find? name = if name = removed then none else s.find? name :=
  find?_filter_ne s.opened removed

theorem find?_put (s : Session) (o : OpenFile) :
    (s.put o).find? name = if name = o.file.name then some o else s.find? name := by
  show ((s.opened.filter (·.file.name != o.file.name)) ++ [o]).find? _ = _
  rw [List.find?_append, find?_filter_ne]
  by_cases h : name = o.file.name
  · simp [h]
  · simp [h, Ne.symm h, find?]

theorem find?_put_self (s : Session) (h : o.file.name = name) : (s.put o).find? name = some o := by
  rw [find?_put, if_pos h.symm]

theorem find?_put_of_ne {other : String} (h : o.file.name = name) (hother : other ≠ name) :
    (s.put o).find? other = s.find? other := by
  rw [find?_put, h, if_neg hother]

@[simp] theorem store_put (s : Session) (o : OpenFile) : (s.put o).store = s.store := rfl

@[simp] theorem store_remove (s : Session) (name : String) : (s.remove name).store = s.store := rfl

/-! ## operations that succeed -/

theorem loaded_eq_ok_iff {allowIncludes : Bool} : s.loaded d name allowIncludes = .ok o ↔
    ∃ text, s.store.textOf? d name = some text ∧
      o = ⟨.ofText name allowIncludes text, .ofText text, text⟩ := by
  simp only [loaded, Except.bind_eq_ok_iff]
  constructor
  · rintro ⟨⟨text, v⟩, hget, h⟩
    obtain ⟨htext, rfl⟩ := Store.get_eq_ok_iff.mp hget
    cases h
    exact ⟨text, htext, rfl⟩
  · rintro ⟨text, htext, rfl⟩
    exact ⟨_, Store.get_eq_ok_iff.mpr ⟨htext, rfl⟩, rfl⟩

theorem edit_eq_ok {change : PolicyFile → Except Fault PolicyFile} {ds : List Diagnostic}
    (h : s.edit name change = (.ok ds, s')) : ∃ o f, s.find? name = some o ∧
      change o.file = .ok f ∧ ds = f.diagnostics ∧ s' = s.put { o with file := f } := by
  unfold edit at h
  split at h
  · cases h
  · next o ho =>
    split at h
    · cases h
    · next f hf =>
      cases h
      exact ⟨o, f, entry_eq_ok_iff.mp ho, hf, rfl, rfl⟩

/-! ## effects -/

namespace Command

def edited? : Command → Option String
  | .setText name _ | .insertRule name _ _ | .replaceLine name _ _ | .moveRule name _ _
  | .deleteLine name _ | .editField name _ _ _ => some name
  | _ => none

def isQuestion : Command → Bool
  | .files | .file _ | .diagnostics _ | .isModified _ | .canSave _ | .preview _ => true
  | _ => false

end Command

/-- How a command other than saving succeeds, and the session it leaves. -/
inductive Effect (s : Session) (d : Disk) : Command → Session → Prop where
  | asked {c : Command} : c.isQuestion = true → Effect s d c s
  | held {name : String} {allowIncludes : Option Bool} {o : OpenFile} :
      s.find? name = some o → Effect s d (.open name allowIncludes) s
  | opened {name : String} {allowIncludes : Option Bool} {o : OpenFile} :
      s.find? name = none → s.loaded d name (allowIncludes.getD s.allowIncludes) = .ok o →
      Effect s d (.open name allowIncludes) (s.put o)
  | created {name : String} {allowIncludes : Option Bool} :
      s.find? name = none → s.store.exists? d name = .ok false →
      Effect s d (.create name allowIncludes)
        (s.put ⟨.empty name (allowIncludes.getD s.allowIncludes), .new, ""⟩)
  | closed {name : String} {o : OpenFile} :
      s.find? name = some o → Effect s d (.close name) (s.remove name)
  | emptied {name : String} {o : OpenFile} :
      s.find? name = some o → o.version = .new →
      Effect s d (.reset name) (s.put { o with file := .empty name o.file.allowIncludes })
  | reloaded {name : String} {o o' : OpenFile} :
      s.find? name = some o → o.version ≠ .new →
      s.loaded d name o.file.allowIncludes = .ok o' → Effect s d (.reset name) (s.put o')
  | edited {c : Command} {name : String} {o : OpenFile} {f : PolicyFile} :
      c.edited? = some name → s.find? name = some o → o.file.Keeps f →
      Effect s d c (s.put { o with file := f })

/-- What an operation that a command asks for comes to: it fails and leaves the session as it is, or
it succeeds with one of the effects. -/
inductive Ends {α : Type} (s : Session) (d : Disk) (c : Command) :
    Except Fault α × Session → Prop where
  | failed (e : Fault) : Ends s d c (.error e, s)
  | done {a : α} {s' : Session} : Effect s d c s' → Ends s d c (.ok a, s')

theorem ends_open {allowIncludes : Option Bool} :
    Ends s d (.open name allowIncludes) (s.open d name allowIncludes) := by
  unfold Session.open
  split
  · next o hfind =>
    split
    · exact .done (.held hfind)
    · exact .failed _
  · next hnone =>
    split
    · exact .failed _
    · next o ho => exact .done (.opened hnone ho)

theorem ends_create {allowIncludes : Option Bool} :
    Ends s d (.create name allowIncludes) (s.create d name allowIncludes) := by
  unfold create
  split
  · exact .failed _
  · next there hthere =>
    split
    · exact .failed _
    · next hfree =>
      simp only [Bool.or_eq_true, not_or, Bool.not_eq_true, Option.isSome_eq_false_iff,
        Option.isNone_iff_eq_none] at hfree
      obtain ⟨hnone, rfl⟩ := hfree
      exact .done (.created hnone hthere)

theorem ends_close : Ends s d (.close name) (s.close name) := by
  unfold close
  split
  · exact .failed _
  · next o ho => exact .done (.closed (entry_eq_ok_iff.mp ho))

theorem ends_reset : Ends s d (.reset name) (s.reset d name) := by
  unfold reset
  split
  · exact .failed _
  · next o ho =>
    have hfind := entry_eq_ok_iff.mp ho
    split
    · next hnew => exact .done (.emptied hfind hnew)
    · next hnew =>
      split
      · exact .failed _
      · next o' ho' => exact .done (.reloaded hfind hnew ho')

theorem ends_edit {c : Command} {change : PolicyFile → Except Fault PolicyFile}
    (hc : c.edited? = some name) (hchange : ∀ f g, change f = .ok g → f.Keeps g) :
    Ends s d c (s.edit name change) := by
  unfold edit
  split
  · exact .failed _
  · next o ho =>
    split
    · exact .failed _
    · next f hf => exact .done (.edited hc (entry_eq_ok_iff.mp ho) (hchange _ _ hf))

theorem ends_setText {text : String} : Ends s d (.setText name text) (s.setText name text) := by
  refine ends_edit rfl fun f g hg => ?_
  cases hg
  exact f.keeps_withText text

theorem ends_insertRule {index : Number} {tokens : List String} :
    Ends s d (.insertRule name index tokens) (s.insertRule name index tokens) := by
  unfold insertRule
  split
  · exact .failed _
  · exact ends_edit rfl fun _ _ => PolicyFile.keeps_insertLine

theorem ends_asked {α : Type} {c : Command} (hc : c.isQuestion = true) (x : Except Fault α) :
    Ends s d c (x, s) := by
  cases x with
  | error e => exact .failed e
  | ok a => exact .done (.asked hc)

theorem Ends.told {α : Type} {c : Command} {outcome : Except Fault α × Session}
    (h : Ends s d c outcome) (reply : α → Reply) : Ends s d c (answer.told reply outcome) := by
  cases h with
  | failed e => exact .failed e
  | done heffect => exact .done heffect

/-- **A command fails and leaves the session as it is, or has one of the effects.** -/
theorem ends_answer {c : Command} (hc : ∀ name, c ≠ .save name) : Ends s d c (s.answer d c) := by
  cases c with
  | «open» => exact ends_open.told _
  | create => exact ends_create.told _
  | close => exact ends_close.told _
  | reset => exact ends_reset.told _
  | setText => exact ends_setText.told _
  | insertRule => exact ends_insertRule.told _
  | replaceLine => exact (ends_edit rfl fun _ _ => PolicyFile.keeps_replaceLine).told _
  | moveRule => exact (ends_edit rfl fun _ _ => PolicyFile.keeps_moveLine).told _
  | deleteLine => exact (ends_edit rfl fun _ _ => PolicyFile.keeps_deleteLine).told _
  | editField => exact (ends_edit rfl fun _ _ => PolicyFile.keeps_editField).told _
  | save name => exact absurd rfl (hc name)
  | files | file | diagnostics | isModified | canSave | preview => exact ends_asked rfl _

/-! ## saving -/

variable {host host' : Host}

/-- The open file is without errors and the stored one is as the session knows it; afterwards the
session knows the text it has written. -/
theorem save_eq_ok (h : s.save host name = (.ok (), s', host')) :
    ∃ o p written, s.find? name = some o ∧ o.file.canSave = true ∧ s.store.path name = .ok p ∧
      o.version.Fits host.disk p ∧
      Store.writeAt host.disk p (Text.Utf8.encode o.file.text) = (.ok (), written) ∧
      s' = s.put { o with version := .ofText o.file.text, savedText := o.file.text } ∧
      host' = s.record name .saved o.file.diagnostics none { host with disk := written } := by
  unfold save at h
  split at h
  · cases h
  · next o ho =>
    simp only at h
    split at h
    · next hcan =>
      split at h
      · next v written hreplace =>
        cases h
        obtain ⟨p, hp, hfits, rfl, hwritten⟩ := Store.replace_eq_ok hreplace
        exact ⟨o, p, written, entry_eq_ok_iff.mp ho, hcan, hp, hfits, hwritten, rfl, rfl⟩
      · cases h
    · cases h

/-- A save that fails finds no open file, or one with errors, or the store does not take it; the
attempt is recorded, and the session stays as it is. -/
theorem save_eq_error {e : Fault} (h : s.save host name = (.error e, s', host')) :
    s' = s ∧ ((s.find? name = none ∧ host' = host) ∨
      ∃ o outcome reason left, s.find? name = some o ∧
        host' = s.record name outcome o.file.diagnostics reason { host with disk := left } ∧
        ((o.file.canSave = false ∧ left = host.disk) ∨
          (o.file.canSave = true ∧
            s.store.replace host.disk name o.file.text o.version = (.error e, left)))) := by
  unfold save at h
  cases ho : s.entry name with
  | error f =>
    rw [ho] at h
    cases h
    refine ⟨rfl, .inl ⟨?_, rfl⟩⟩
    cases hfind : s.find? name with
    | none => rfl
    | some o =>
      rw [entry_eq_ok_iff.mpr hfind] at ho
      cases ho
  | ok o =>
    have hfind := entry_eq_ok_iff.mp ho
    rw [ho] at h
    simp only at h
    split at h
    · next hcan =>
      split at h
      · cases h
      · next f left hreplace =>
        cases h
        exact ⟨rfl, .inr ⟨o, .failed, some e.message, left, hfind, rfl, .inr ⟨hcan, hreplace⟩⟩⟩
    · next hcan =>
      cases h
      exact ⟨rfl, .inr ⟨o, .rejected, none, host.disk, hfind, rfl,
        .inl ⟨Bool.eq_false_iff.mpr hcan, rfl⟩⟩⟩

/-! ## commands carried out -/

theorem run_save : s.run host (.save name) =
    ((s.save host name).1.map fun _ => .done, (s.save host name).2) :=
  rfl

theorem run_of_ne_save {c : Command} (hc : ∀ name, c ≠ .save name) :
    s.run host c = ((s.answer host.disk c).1, (s.answer host.disk c).2, host) := by
  cases c with
  | save name => exact absurd rfl (hc name)
  | _ => rfl

theorem save_or_run_eq (s : Session) (host : Host) (c : Command) : (∃ name, c = .save name) ∨
    ∃ outcome, Ends s host.disk c outcome ∧ s.run host c = (outcome.1, outcome.2, host) := by
  by_cases hc : ∃ name, c = .save name
  · exact .inl hc
  · have hc' : ∀ name, c ≠ .save name := fun name hname => hc ⟨name, hname⟩
    exact .inr ⟨_, ends_answer hc', run_of_ne_save hc'⟩

/-- A command that succeeds saves, or has one of the effects and leaves the host alone. -/
theorem run_eq_ok {c : Command} {reply : Reply} (h : s.run host c = (.ok reply, s', host')) :
    (∃ name, c = .save name ∧ s.save host name = (.ok (), s', host')) ∨
      (host' = host ∧ Effect s host.disk c s') := by
  rcases save_or_run_eq s host c with ⟨name, rfl⟩ | ⟨outcome, hends, hrun⟩
  · rw [run_save, Prod.mk.injEq] at h
    obtain ⟨u, hsaved, -⟩ := Except.map_eq_ok_iff.mp h.1
    exact .inl ⟨name, rfl, Prod.ext hsaved h.2⟩
  · rw [hrun] at h
    cases hends with
    | failed e => cases h
    | done heffect =>
      cases h
      exact .inr ⟨rfl, heffect⟩

/-- A command that fails leaves the session as it is, and the host too unless it is a save. -/
theorem run_eq_error {c : Command} {e : Fault} (h : s.run host c = (.error e, s', host')) :
    s' = s ∧ (host' = host ∨ ∃ name, c = .save name ∧ s.save host name = (.error e, s', host')) := by
  rcases save_or_run_eq s host c with ⟨name, rfl⟩ | ⟨outcome, hends, hrun⟩
  · rw [run_save, Prod.mk.injEq] at h
    have hsave : s.save host name = (.error e, s', host') :=
      Prod.ext (Except.map_eq_error_iff.mp h.1) h.2
    exact ⟨(save_eq_error hsave).1, .inr ⟨name, rfl, hsave⟩⟩
  · rw [hrun] at h
    cases hends with
    | failed e' =>
      cases h
      exact ⟨rfl, .inl rfl⟩
    | done heffect => cases h

/-- **A command that fails leaves the session as it is.** -/
theorem session_of_run_eq_error {c : Command} {e : Fault}
    (h : s.run host c = (.error e, s', host')) : s' = s :=
  (run_eq_error h).1

end QubePolicy.Session
