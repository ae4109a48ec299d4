import QubePolicy.Proofs.AuditLog.Lines
import QubePolicy.Proofs.AuditLog.Owned

/-!
# What becomes of the entries of an audit log

An entry that is written stays, in the log or in a log that was moved aside, as long as no two logs
are moved aside at one instant: the second one takes the place of the first.

* `AuditLog.Call`            what a log is asked to do, with `Call.run` and `runAll`;
* `AuditLog.moves`           the instants at which calls move the log aside;
* `AuditLog.run_of_quiet`    what a call does if it has no fault to tell of;
* `AuditLog.bytes?_of_moves`   a log that is moved aside takes the place of any other one there;
* `AuditLog.Keeps`           every line so far is in one of the files, kept by each call;
* `AuditLog.keeps_every_line`  no line is lost if the instants of the moves differ;
* `AuditLog.loses_a_line`    otherwise one may be.
-/

namespace QubePolicy.AuditLog

variable {a : AuditLog} {h : Host} {d d' : Disk} {now : Instant} {line : String}

/-! ## calls -/

inductive Call where
  | log (order : List Entry.Member) (entry : Entry)
  | record (file : String) (outcome : Outcome) (diagnostics : List Diagnostic)
      (reason : Option String)
  | rotate

namespace Call

def run (a : AuditLog) (h : Host) : Call → Host
  | .log order e => a.log order e h
  | .record file outcome diagnostics reason => a.record file outcome diagnostics reason h
  | .rotate => a.rotate h

def line? (now : Instant) : Call → Option String
  | .log order e => some (e.toJson order).render
  | .record file outcome diagnostics reason =>
    some (Entry.toJson Entry.Member.all ⟨now.render, file, outcome,
      .whole (Diagnostic.errorCount diagnostics), .whole (Diagnostic.warningCount diagnostics),
      reason⟩).render
  | .rotate => none

def movesAside (a : AuditLog) (h : Host) : Call → Bool
  | .rotate => h.disk.existsAt a.path
  | .log .. | .record .. =>
    match h.disk.makeDirectoriesAt (Path.parentText a.path) with
    | .ok made => a.isFull made
    | .error _ => false

end Call

def step (a : AuditLog) (h : Host) (call : Instant × Call) : Host :=
  call.2.run a { h with now := call.1 }

def runAll (a : AuditLog) (h : Host) (calls : List (Instant × Call)) : Host :=
  calls.foldl a.step h

/-- The instants at which calls move the log aside. -/
def moves (a : AuditLog) : Host → List (Instant × Call) → List Instant
  | _, [] => []
  | h, call :: calls =>
    (if call.2.movesAside a { h with now := call.1 } then [call.1] else []) ++
      moves a (a.step h call) calls

def lines (calls : List (Instant × Call)) : List String :=
  calls.filterMap fun call => call.2.line? call.1

theorem lines_cons (now : Instant) (c : Call) (calls : List (Instant × Call)) :
    lines ((now, c) :: calls) = (c.line? now).toList ++ lines calls := by
  cases h : c.line? now <;> simp [lines, h]

theorem isLine_of_line? {c : Call} (h : c.line? now = some line) : IsLine line := by
  cases c with
  | log order e =>
    rw [Call.line?, Option.some.injEq] at h
    exact h ▸ isLine_entry order e
  | record file outcome diagnostics reason =>
    rw [Call.line?, Option.some.injEq] at h
    exact h ▸ isLine_entry _ _
  | rotate => cases h

/-! ## the console -/

theorem console_rotate (a : AuditLog) (h : Host) : h.console <+: (a.rotate h).console := by
  unfold rotate
  split
  · split
    · exact List.prefix_refl _
    · exact List.prefix_append _ _
  · exact List.prefix_refl _

theorem console_log (order : List Entry.Member) (e : Entry) (h : Host) :
    h.console <+: (a.log order e h).console := by
  have hready (made : Disk) : h.console <+: (if a.isFull made then a.rotate { h with disk := made }
      else { h with disk := made }).console := by
    split
    · exact console_rotate a { h with disk := made }
    · exact List.prefix_refl _
  unfold log
  split
  · exact List.prefix_append _ _
  · simp only
    split
    · exact hready _
    · exact (hready _).trans (List.prefix_append _ _)

/-- **What was told on the console stays.** -/
theorem console_run (a : AuditLog) (h : Host) (c : Call) : h.console <+: (c.run a h).console := by
  cases c with
  | log order e =>
    rw [Call.run]
    exact console_log order e h
  | record file outcome diagnostics reason =>
    rw [Call.run, record]
    exact console_log _ _ h
  | rotate => exact console_rotate a h

theorem console_step (a : AuditLog) (h : Host) (call : Instant × Call) :
    h.console <+: (a.step h call).console := by
  rw [step]
  exact console_run a { h with now := call.1 } call.2

theorem console_runAll (a : AuditLog) (h : Host) (calls : List (Instant × Call)) :
    h.console <+: (a.runAll h calls).console := by
  induction calls generalizing h with
  | nil => exact List.prefix_refl _
  | cons call calls ih => exact (console_step a h call).trans (ih _)

/-! ## calls without a fault -/

theorem rotate_of_quiet (hquiet : (a.rotate h).console = h.console) :
    (h.disk.existsAt a.path = false ∧ (a.rotate h).disk = h.disk) ∨
      (h.disk.existsAt a.path = true ∧ a.moveAside h.now h.disk = .ok (a.rotate h).disk) := by
  unfold rotate at hquiet ⊢
  split
  · next hthere =>
    cases hmove : a.moveAside h.now h.disk with
    | ok moved => exact .inr ⟨hthere, rfl⟩
    | error e =>
      rw [if_pos hthere, hmove] at hquiet
      simp [Host.print] at hquiet
  · next hthere => exact .inl ⟨Bool.eq_false_iff.mpr hthere, rfl⟩

theorem existsAt_of_isFull (hfull : a.isFull d = true) : d.existsAt a.path = true := by
  unfold isFull at hfull
  unfold Disk.existsAt
  cases hp : d.locate a.path with
  | error e =>
    rw [hp] at hfull
    cases hfull
  | ok p =>
    rw [hp] at hfull
    exact (Bool.and_eq_true _ _ ▸ hfull).1

theorem log_of_quiet {order : List Entry.Member} {e : Entry}
    (hquiet : (a.log order e h).console = h.console) : ∃ made ready,
      h.disk.makeDirectoriesAt (Path.parentText a.path) = .ok made ∧
      (a.isFull made = false ∧ ready = made ∨
        a.isFull made = true ∧ a.moveAside h.now made = .ok ready) ∧
      a.appendLine (e.toJson order).render ready = .ok (a.log order e h).disk := by
  unfold log at hquiet ⊢
  cases hmake : h.disk.makeDirectoriesAt (Path.parentText a.path) with
  | error fault =>
    rw [hmake] at hquiet
    simp [Host.print] at hquiet
  | ok made =>
    rw [hmake] at hquiet
    simp only at hquiet ⊢
    cases hfull : a.isFull made with
    | false =>
      rw [hfull] at hquiet
      refine ⟨made, made, rfl, .inl ⟨hfull, rfl⟩, ?_⟩
      simp only [Bool.false_eq_true, if_false] at hquiet ⊢
      cases happend : a.appendLine (e.toJson order).render made with
      | ok written => rfl
      | error fault =>
        rw [happend] at hquiet
        simp [Host.print] at hquiet
    | true =>
      rw [hfull] at hquiet
      simp only [if_true] at hquiet ⊢
      have hgrows := console_rotate a { h with disk := made }
      cases happend : a.appendLine (e.toJson order).render (a.rotate { h with disk := made }).disk with
      | ok written =>
        rw [happend] at hquiet
        rcases rotate_of_quiet (h := { h with disk := made }) hquiet with ⟨hthere, -⟩ | ⟨-, hmove⟩
        · rw [existsAt_of_isFull hfull] at hthere
          cases hthere
        · exact ⟨made, _, rfl, .inr ⟨hfull, hmove⟩, happend⟩
      | error fault =>
        rw [happend] at hquiet
        have hlength := hgrows.length_le
        have hlength' := congrArg List.length hquiet
        simp [Host.print] at hlength hlength'
        omega

/-- **A call that tells of no fault** moves the log aside, if it is to be moved, and then writes its
line, if it has one. -/
theorem run_of_quiet {c : Call} (hquiet : (c.run a h).console = h.console) : ∃ made ready,
    (∀ q, made.bytes? q = h.disk.bytes? q) ∧
    (c.movesAside a h = false ∧ ready = made ∨
      c.movesAside a h = true ∧ a.moveAside h.now made = .ok ready) ∧
    match c.line? h.now with
    | none => (c.run a h).disk = ready
    | some line => a.appendLine line ready = .ok (c.run a h).disk := by
  cases c with
  | rotate => exact ⟨h.disk, _, fun _ => rfl, rotate_of_quiet hquiet, rfl⟩
  | log order e =>
    rw [Call.run] at hquiet ⊢
    obtain ⟨made, ready, hmade, hready, happend⟩ := log_of_quiet hquiet
    refine ⟨made, ready, Disk.bytes?_makeDirectoriesAt hmade, ?_, happend⟩
    rwa [Call.movesAside, hmade]
  | record file outcome diagnostics reason =>
    rw [Call.run, record] at hquiet ⊢
    obtain ⟨made, ready, hmade, hready, happend⟩ := log_of_quiet hquiet
    refine ⟨made, ready, Disk.bytes?_makeDirectoriesAt hmade, ?_, happend⟩
    rwa [Call.movesAside, hmade]

theorem quiet_cons {call : Instant × Call} {calls : List (Instant × Call)}
    (hquiet : (a.runAll h (call :: calls)).console = h.console) :
    (a.step h call).console = h.console ∧
      (a.runAll (a.step h call) calls).console = (a.step h call).console := by
  have hgrows := console_step a h call
  have hgrows' := console_runAll a (a.step h call) calls
  have hstep : (a.step h call).console = h.console := by
    refine (hgrows.eq_of_length (Nat.le_antisymm hgrows.length_le ?_)).symm
    exact hquiet ▸ hgrows'.length_le
  exact ⟨hstep, hquiet.trans hstep.symm⟩

/-! ## what is where -/

theorem bytes?_place_of_moveAside (hmove : a.moveAside now d = .ok d') :
    d'.bytes? a.place = none := by
  rw [Disk.bytes?, Disk.look_rename_source (moveAside_eq_ok hmove) (asidePlace_ne_place a now).symm
    (List.prefix_refl _)]
  rfl

theorem bytes?_asidePlace_of_moveAside (hmove : a.moveAside now d = .ok d') :
    d'.bytes? (a.asidePlace now) = d.bytes? a.place := by
  have hlook := Disk.look_rename_target (moveAside_eq_ok hmove) []
  rw [List.append_nil, List.append_nil] at hlook
  exact congrArg Option.join hlook

theorem bytes?_place_of_appendLine (happend : a.appendLine line d = .ok d') : d'.bytes? a.place =
    some ((d.bytes? a.place).getD [] ++ Text.Utf8.encode (line ++ "\n")) := by
  rw [Disk.bytes?, look_appendLine happend, if_pos rfl]
  rfl

theorem bytes?_asidePlace_of_appendLine (happend : a.appendLine line d = .ok d') (t : Instant) :
    d'.bytes? (a.asidePlace t) = d.bytes? (a.asidePlace t) := by
  rw [Disk.bytes?, look_appendLine happend, if_neg (asidePlace_ne_place a t), Disk.bytes?]

/-- **A log that is moved aside takes the place of any other one** that was moved aside at the
instant, and the next line is the only one of the log. -/
theorem bytes?_of_moves {c : Call} (hquiet : (c.run a h).console = h.console)
    (hmoves : c.movesAside a h = true) (hline : c.line? h.now = some line) :
    (c.run a h).disk.bytes? (a.asidePlace h.now) = h.disk.bytes? a.place ∧
      (c.run a h).disk.bytes? a.place = some (Text.Utf8.encode (line ++ "\n")) := by
  obtain ⟨made, ready, hmade, ⟨hstays, -⟩ | ⟨-, hmove⟩, happend⟩ := run_of_quiet hquiet
  · rw [hmoves] at hstays
    cases hstays
  · rw [hline] at happend
    rw [bytes?_asidePlace_of_appendLine happend, bytes?_asidePlace_of_moveAside hmove, hmade,
      bytes?_place_of_appendLine happend, bytes?_place_of_moveAside hmove]
    exact ⟨rfl, rfl⟩

/-! ## lines that are kept -/

def Holds (d : Disk) (p : Path) (line : String) : Prop :=
  ∃ bytes, d.bytes? p = some bytes ∧ line ∈ linesIn bytes

theorem Holds.congr {p q : Path} (h : Holds d p line) (hbytes : d'.bytes? q = d.bytes? p) :
    Holds d' q line := by
  obtain ⟨bytes, hfile, hline⟩ := h
  exact ⟨bytes, hbytes.trans hfile, hline⟩

/-- The log ends with a line feed, if it is there, and each of the lines is in the log or in one that
was moved aside at one of the instants. -/
structure Keeps (a : AuditLog) (moved : List Instant) (written : List String) (d : Disk) : Prop where
  ended : Ended ((d.bytes? a.place).getD [])
  kept : ∀ line ∈ written, Holds d a.place line ∨ ∃ t ∈ moved, Holds d (a.asidePlace t) line

namespace Keeps

variable {moved : List Instant} {written : List String}

theorem congr (hkeeps : Keeps a moved written d) (hbytes : ∀ q, d'.bytes? q = d.bytes? q) :
    Keeps a moved written d' := by
  refine ⟨by rw [hbytes]; exact hkeeps.ended, fun line hline => ?_⟩
  rcases hkeeps.kept line hline with hlog | ⟨t, ht, haside⟩
  · exact .inl (hlog.congr (hbytes _))
  · exact .inr ⟨t, ht, haside.congr (hbytes _)⟩

/-- **A log that is moved aside is kept**, and so are those that were moved at other instants. -/
theorem moveAside (hkeeps : Keeps a moved written d) (hmove : a.moveAside now d = .ok d')
    (hnew : now ∉ moved) : Keeps a (moved ++ [now]) written d' := by
  have hrename := moveAside_eq_ok hmove
  have hbelow : ¬a.place.Contains (a.asidePlace now) := by
    rcases Disk.rename_eq_ok hrename with ⟨hsame, -⟩ | ⟨tree, root, -, hbelow, -⟩
    · exact absurd hsame.symm (asidePlace_ne_place a now)
    · exact hbelow
  have hothers (t : Instant) (ht : t ∈ moved) :
      d'.bytes? (a.asidePlace t) = d.bytes? (a.asidePlace t) := by
    have hsource : ¬a.place.Contains (a.asidePlace t) := fun hcontains =>
      hbelow (contains_asidePlace hcontains (asidePlace_ne_place a t).symm now)
    have htarget : ¬(a.asidePlace now).Contains (a.asidePlace t) :=
      not_contains_asidePlace fun hsame => hnew (hsame ▸ ht)
    exact congrArg Option.join (Disk.look_rename_of_not_contains hrename hsource htarget)
  refine ⟨.inl (by rw [bytes?_place_of_moveAside hmove]; rfl), fun line hline => .inr ?_⟩
  rcases hkeeps.kept line hline with hlog | ⟨t, ht, haside⟩
  · exact ⟨now, List.mem_append_right _ (List.mem_singleton_self now),
      hlog.congr (bytes?_asidePlace_of_moveAside hmove)⟩
  · exact ⟨t, List.mem_append_left _ ht, haside.congr (hothers t ht)⟩

/-- **A line that is written is kept**, beside those that were there. -/
theorem appendLine (hkeeps : Keeps a moved written d) (hline : IsLine line)
    (happend : a.appendLine line d = .ok d') : Keeps a moved (written ++ [line]) d' := by
  have hlog := bytes?_place_of_appendLine happend
  have hlines : linesIn ((d.bytes? a.place).getD [] ++ Text.Utf8.encode (line ++ "\n")) =
      linesIn ((d.bytes? a.place).getD []) ++ [line] := by
    rw [linesIn_append hkeeps.ended, linesIn_line hline]
  refine ⟨by rw [hlog]; exact ended_append_line _ _, fun line' hline' => ?_⟩
  rcases List.mem_append.mp hline' with hold | hnew
  · rcases hkeeps.kept line' hold with ⟨bytes, hbytes, hmem⟩ | ⟨t, ht, haside⟩
    · refine .inl ⟨_, hlog, ?_⟩
      rw [hlines, hbytes]
      exact List.mem_append_left _ hmem
    · exact .inr ⟨t, ht, haside.congr (bytes?_asidePlace_of_appendLine happend t)⟩
  · refine .inl ⟨_, hlog, ?_⟩
    rw [hlines]
    exact List.mem_append_right _ hnew

/-- **A call without a fault keeps every line**, and its own one. -/
theorem run (hkeeps : Keeps a moved written h.disk) {c : Call}
    (hquiet : (c.run a h).console = h.console)
    (hnew : ∀ t ∈ (if c.movesAside a h then [h.now] else []), t ∉ moved) :
    Keeps a (moved ++ if c.movesAside a h then [h.now] else [])
      (written ++ (c.line? h.now).toList) (c.run a h).disk := by
  obtain ⟨made, ready, hmade, hready, hwritten⟩ := run_of_quiet hquiet
  have hkept : Keeps a (moved ++ if c.movesAside a h then [h.now] else []) written ready := by
    rcases hready with ⟨hstays, rfl⟩ | ⟨hmoves, hmove⟩
    · rw [hstays]
      simpa using hkeeps.congr hmade
    · rw [hmoves] at hnew ⊢
      exact (hkeeps.congr hmade).moveAside hmove (hnew h.now (List.mem_singleton_self _))
  cases hline : c.line? h.now with
  | none =>
    rw [hline] at hwritten
    rw [hwritten]
    simpa using hkept
  | some line =>
    rw [hline] at hwritten
    exact hkept.appendLine (isLine_of_line? hline) hwritten

/-- **So do all calls**, if the log is moved aside at different instants. -/
theorem runAll (hkeeps : Keeps a moved written h.disk) {calls : List (Instant × Call)}
    (hquiet : (a.runAll h calls).console = h.console) (hmoves : (moved ++ a.moves h calls).Nodup) :
    Keeps a (moved ++ a.moves h calls) (written ++ lines calls) (a.runAll h calls).disk := by
  -- along the calls: what the first one moves aside is among `moved` for the others
  induction calls generalizing h moved written with
  | nil => simpa [moves, lines, AuditLog.runAll] using hkeeps
  | cons call calls ih =>
    obtain ⟨now, c⟩ := call
    obtain ⟨hstep, hrest⟩ := quiet_cons hquiet
    rw [moves, ← List.append_assoc] at hmoves ⊢
    have hnew := (List.nodup_append.mp (List.nodup_append.mp hmoves).1).2.2
    have hkept : Keeps a _ _ (a.step h (now, c)).disk :=
      Keeps.run (h := { h with now := now }) hkeeps hstep fun t ht hmem => hnew t hmem t ht rfl
    have hall := ih hkept hrest hmoves
    rwa [List.append_assoc written, ← lines_cons] at hall

end Keeps

/-- **No line is lost** from a log of which the last line is ended, as long as no fault is told of and
the log is moved aside at different instants: each line that was written is in the log, or in one that
was moved aside. -/
theorem keeps_every_line (hended : Ended ((h.disk.bytes? a.place).getD []))
    {calls : List (Instant × Call)} (hquiet : (a.runAll h calls).console = h.console)
    (hmoves : (a.moves h calls).Nodup) (hline : line ∈ lines calls) :
    Holds (a.runAll h calls).disk a.place line ∨
      ∃ t ∈ a.moves h calls, Holds (a.runAll h calls).disk (a.asidePlace t) line := by
  have hstart : Keeps a [] [] h.disk := ⟨hended, fun line hnone => absurd hnone List.not_mem_nil⟩
  exact (hstart.runAll hquiet hmoves).kept line hline

/-! ## moves at one instant -/

def smallLog : AuditLog := ⟨"/audit.log", 0⟩

def blankHost : Host := ⟨.blank, ⟨0⟩, []⟩

def savedEntry (file : String) : Entry :=
  ⟨"2025-01-01T00:00:00.000Z", file, .saved, .whole 0, .whole 0, none⟩

def apartCalls : List (Instant × Call) :=
  [(⟨1⟩, .log Entry.Member.all (savedEntry "10-first")), (⟨2⟩, .rotate),
    (⟨2⟩, .log Entry.Member.all (savedEntry "20-second"))]

theorem keeps_every_line_apart :
    Ended ((blankHost.disk.bytes? smallLog.place).getD []) ∧
    (smallLog.runAll blankHost apartCalls).console = blankHost.console ∧
    (smallLog.moves blankHost apartCalls).Nodup ∧
    ∀ line ∈ lines apartCalls,
      Holds (smallLog.runAll blankHost apartCalls).disk smallLog.place line ∨
        ∃ t ∈ smallLog.moves blankHost apartCalls,
          Holds (smallLog.runAll blankHost apartCalls).disk (smallLog.asidePlace t) line := by
  obtain ⟨hnone, hquiet, hmoves⟩ :
      (blankHost.disk.bytes? smallLog.place).getD [] = [] ∧
      (smallLog.runAll blankHost apartCalls).console = blankHost.console ∧
      smallLog.moves blankHost apartCalls = [⟨2⟩] := by
    decide +kernel
  have hnodup : (smallLog.moves blankHost apartCalls).Nodup := by
    rw [hmoves]
    exact List.pairwise_singleton _ _
  exact ⟨.inl hnone, hquiet, hnodup, fun line => keeps_every_line (.inl hnone) hquiet hnodup⟩

def crowdedCall (file : String) : Instant × Call :=
  (⟨1735689600000⟩, .log Entry.Member.all (savedEntry file))

def savedLine (file : String) : String := ((savedEntry file).toJson Entry.Member.all).render

/-- Three lines at one instant: the log is moved aside twice, to the same place. -/
def crowdedCalls : List (Instant × Call) := ["10-first", "20-second", "30-third"].map crowdedCall

def crowdedHost (files : List String) : Host :=
  { smallLog.runAll blankHost (files.map crowdedCall) with now := ⟨1735689600000⟩ }

theorem isLine_savedLine (file : String) : IsLine (savedLine file) := isLine_entry _ _

theorem savedLine_ne : ∀ file ∈ ["20-second", "30-third"], savedLine "10-first" ≠ savedLine file := by
  have hchars : ∀ file ∈ ["20-second", "30-third"],
      ((savedEntry "10-first").toJson Entry.Member.all).renderChars ≠
        ((savedEntry file).toJson Entry.Member.all).renderChars := by
    decide
  exact fun file hfile h => hchars file hfile (String.ofList_inj.mp h)

/-- **A log that is moved aside twice at one instant loses a line**: the second line is in the place
of the first one, and no fault is told of. -/
theorem loses_a_line :
    Ended ((blankHost.disk.bytes? smallLog.place).getD []) ∧
    (smallLog.runAll blankHost crowdedCalls).console = blankHost.console ∧
    ∃ line ∈ lines crowdedCalls,
      ¬(Holds (smallLog.runAll blankHost crowdedCalls).disk smallLog.place line ∨
        ∃ t ∈ smallLog.moves blankHost crowdedCalls,
          Holds (smallLog.runAll blankHost crowdedCalls).disk (smallLog.asidePlace t) line) := by
  obtain ⟨hnone, hquiet, hmoves, hsecond, hthird⟩ :
      (blankHost.disk.bytes? smallLog.place).getD [] = [] ∧
      (smallLog.runAll blankHost crowdedCalls).console = blankHost.console ∧
      (∀ t ∈ smallLog.moves blankHost crowdedCalls, t = ⟨1735689600000⟩) ∧
      (crowdedCall "20-second").2.movesAside smallLog (crowdedHost ["10-first"]) = true ∧
      (crowdedCall "30-third").2.movesAside smallLog (crowdedHost ["10-first", "20-second"]) =
        true := by
    decide +kernel
  obtain ⟨-, hquiet'⟩ := quiet_cons hquiet
  obtain ⟨hquiet₂, hquiet'⟩ := quiet_cons hquiet'
  obtain ⟨hquiet₃, -⟩ := quiet_cons hquiet'
  obtain ⟨-, hplace⟩ := bytes?_of_moves hquiet₂ hsecond rfl
  obtain ⟨haside, hlog⟩ := bytes?_of_moves hquiet₃ hthird rfl
  have hother (file : String) (hfile : file ∈ ["20-second", "30-third"]) {p : Path}
      (hp : (smallLog.runAll blankHost crowdedCalls).disk.bytes? p =
        some (Text.Utf8.encode (savedLine file ++ "\n"))) :
      ¬Holds (smallLog.runAll blankHost crowdedCalls).disk p (savedLine "10-first") := by
    rintro ⟨bytes, hbytes, hline⟩
    rw [← Option.some.inj (hp.symm.trans hbytes), linesIn_line (isLine_savedLine file)] at hline
    exact savedLine_ne file hfile (List.mem_singleton.mp hline)
  refine ⟨.inl hnone, hquiet, savedLine "10-first", List.mem_cons_self, ?_⟩
  rintro (hfirst | ⟨t, ht, hfirst⟩)
  · exact hother "30-third" (by decide) hlog hfirst
  · rw [hmoves t ht] at hfirst
    exact hother "20-second" (by decide) (haside.trans hplace) hfirst

end QubePolicy.AuditLog
