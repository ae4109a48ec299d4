import QubePolicy.Proofs.AuditLog.Aside
import QubePolicy.Proofs.Disk.Moves

/-!
# The files of an audit log

Recording changes the log and the file it is moved aside to, and no other file; only if the path of
the log leads to a directory, the files in it are moved aside with it.

* `AuditLog.look_appendLine`    appending a line changes nothing but the log;
* `AuditLog.Hollow`             no file is below a place;
* `AuditLog.Owns`               the places at which logging may change the file;
* `AuditLog.bytes?_log`         it changes no other one.
-/

namespace QubePolicy.AuditLog

variable {a : AuditLog} {h : Host} {d d' : Disk} {now : Instant} {q : Path}

/-! ## files -/

theorem look_appendLine {line : String} (happend : a.appendLine line d = .ok d') (q : Path) :
    d'.look q = if q = a.place then
      some (some ((d.bytes? a.place).getD [] ++ Text.Utf8.encode (line ++ "\n")))
    else d.look q :=
  Disk.look_append (appendLine_eq_ok happend) q

def Hollow (d : Disk) (p : Path) : Prop := ∀ r, p.Contains r → r ≠ p → d.bytes? r = none

theorem hollow_of_look (h : d.look q ≠ some none) : Hollow d q := by
  intro r hr hne
  rw [Disk.bytes?, Disk.look_below h hr hne]
  rfl

theorem bytes?_moveAside (hmove : a.moveAside now d = .ok d') (hhollow : Hollow d a.place)
    (hlog : q ≠ a.place) (haside : q ≠ a.asidePlace now) : d'.bytes? q = d.bytes? q := by
  have hrename := moveAside_eq_ok hmove
  have hne : a.place ≠ a.asidePlace now := (asidePlace_ne_place a now).symm
  by_cases hsource : a.place.Contains q
  · rw [Disk.bytes?, Disk.look_rename_source hrename hne hsource, hhollow q hsource hlog]
    rfl
  by_cases htarget : (a.asidePlace now).Contains q
  · obtain ⟨name, rest, hrest⟩ := Path.exists_below htarget haside
    have hmoved := Disk.look_rename_target hrename (name :: rest)
    rw [← hrest] at hmoved
    have hnone : d.bytes? ⟨a.place.names ++ name :: rest⟩ = none :=
      hhollow _ (List.prefix_append _ _) (by
        intro hplace
        have hlength := congrArg (fun p : Path => p.names.length) hplace
        simp at hlength)
    rw [Disk.bytes?, Disk.bytes?, Disk.look_below_target hrename hne htarget haside]
    exact (congrArg Option.join hmoved).trans hnone
  · rw [Disk.bytes?, Disk.look_rename_of_not_contains hrename hsource htarget, Disk.bytes?]

/-- The place of the log, or that of the log moved aside at the instant; or, where files lie below the
log, a place below one of the two. -/
def Owns (a : AuditLog) (d : Disk) (now : Instant) (q : Path) : Prop :=
  q = a.place ∨ q = a.asidePlace now ∨
    ¬Hollow d a.place ∧ (a.place.Contains q ∨ (a.asidePlace now).Contains q)

theorem Owns.of_bytes? (hfiles : ∀ r, d'.bytes? r = d.bytes? r) (hq : a.Owns d' now q) :
    a.Owns d now q := by
  rcases hq with hlog | haside | ⟨hhollow, hbelow⟩
  · exact .inl hlog
  · exact .inr (.inl haside)
  · exact .inr (.inr ⟨fun h => hhollow fun r hr hne => (hfiles r).trans (h r hr hne), hbelow⟩)

theorem bytes?_moveAside_of_not_owns (hmove : a.moveAside now d = .ok d')
    (hq : ¬a.Owns d now q) : d'.bytes? q = d.bytes? q := by
  by_cases hhollow : Hollow d a.place
  · exact bytes?_moveAside hmove hhollow (fun hlog => hq (.inl hlog))
      fun haside => hq (.inr (.inl haside))
  · have hsource : ¬a.place.Contains q := fun hc => hq (.inr (.inr ⟨hhollow, .inl hc⟩))
    have htarget : ¬(a.asidePlace now).Contains q := fun hc => hq (.inr (.inr ⟨hhollow, .inr hc⟩))
    rw [Disk.bytes?, Disk.look_rename_of_not_contains (moveAside_eq_ok hmove) hsource htarget,
      Disk.bytes?]

/-- **Logging changes the files of the log only.** -/
theorem bytes?_log (order : List Entry.Member) (e : Entry) (hq : ¬a.Owns h.disk h.now q) :
    (a.log order e h).disk.bytes? q = h.disk.bytes? q := by
  rcases disk_log (a := a) (h := h) order e with hdisk | ⟨made, ready, hmade, hready, hdisk⟩
  · rw [hdisk]
  · have hfiles := Disk.bytes?_makeDirectoriesAt hmade
    have hmoved : ready.bytes? q = made.bytes? q := by
      rcases hready with rfl | hmove
      · rfl
      · exact bytes?_moveAside_of_not_owns hmove fun howns => hq (howns.of_bytes? hfiles)
    rcases hdisk with hdisk | happend
    · rw [hdisk, hmoved, hfiles]
    · have hlog : q ≠ a.place := fun hlog => hq (.inl hlog)
      rw [Disk.bytes?, look_appendLine happend, if_neg hlog, ← hfiles, ← hmoved, Disk.bytes?]

end QubePolicy.AuditLog
