import QubePolicy.Proofs.AuditLog.Runs
import QubePolicy.Proofs.Json.Reading
import Mathlib.Data.List.Nodup

/-!
# The entries that are read back

What is logged is what is read: an entry is read back from its line, whatever its texts are, and
every line is read by itself.

* `AuditLog.Entry.Written`       an entry and an order of its members in which it can be written;
* `AuditLog.Entry.parse?_render`   its line is read as the entry;
* `AuditLog.linesIn_runAll`      calls that tell of no fault and move nothing aside add their lines;
* `AuditLog.AtHand`              the log can be read;
* `AuditLog.reads_every_entry`   the entries that were logged are the ones that are read.
-/

namespace QubePolicy.AuditLog

namespace Entry

/-! ## members -/

theorem Member.key_inj {m m' : Member} : m.key = m'.key ↔ m = m' := by
  constructor
  · cases m <;> cases m' <;> first | exact fun _ => rfl | (intro h; exact absurd h (by decide))
  · exact congrArg key

variable {e : Entry} {order : List Member}

theorem get?_toJson (order : List Member) (e : Entry) (m : Member) :
    (e.toJson order).get? m.key = if m ∈ order then e.value? m else none := by
  rw [toJson, Json.get?]
  induction order with
  | nil => rfl
  | cons m' order ih =>
    rw [List.filterMap_cons]
    by_cases hm : m = m'
    · subst hm
      rw [if_pos List.mem_cons_self]
      cases hv : e.value? m with
      | none =>
        rw [hv, ite_self] at ih
        exact ih
      | some v => simp
    · have hmem : m ∈ m' :: order ↔ m ∈ order := by simp [hm]
      rw [if_congr hmem rfl rfl, ← ih]
      cases hv : e.value? m' with
      | none => rfl
      | some v =>
        have hkey : (m.key == m'.key) = false :=
          beq_eq_false_iff_ne.mpr fun h => hm (Member.key_inj.mp h)
        simp only [Option.map_some, List.lookup_cons, hkey]

/-- The order has each member once, and every member that the entry has a value for; the counts are
natural numbers that are kept when they are read. -/
structure Written (order : List Member) (e : Entry) : Prop where
  nodup : order.Nodup
  complete : ∀ m, (e.value? m).isSome = true → m ∈ order
  errors : ∃ n : Nat, n < Binary64.mantissaBound ∧ e.errors = .whole n
  warnings : ∃ n : Nat, n < Binary64.mantissaBound ∧ e.warnings = .whole n

/-! ## lines of entries -/

/-- **An entry is read from its written form**, if that has all its members. -/
theorem ofJson?_toJson (hcomplete : ∀ m, (e.value? m).isSome = true → m ∈ order) :
    ofJson? (e.toJson order) = some e := by
  have hget (m : Member) : (e.toJson order).get? m.key = e.value? m := by
    rw [get?_toJson]
    split
    · rfl
    · next hm =>
      cases hv : e.value? m with
      | none => rfl
      | some v => exact absurd (hcomplete m (by rw [hv]; rfl)) hm
  have houtcome : Outcome.ofLabel? e.outcome.label = some e.outcome := by
    cases e.outcome <;> rfl
  have hreason : (e.reason.map Json.string).bind Json.string? = e.reason := by
    cases e.reason <;> rfl
  have htimestamp : (e.toJson order).get? "timestamp" = _ := hget .timestamp
  have hfile : (e.toJson order).get? "file" = _ := hget .file
  have hlabel : (e.toJson order).get? "outcome" = _ := hget .outcome
  have herrors : (e.toJson order).get? "errors" = _ := hget .errors
  have hwarnings : (e.toJson order).get? "warnings" = _ := hget .warnings
  have hgiven : (e.toJson order).get? "reason" = _ := hget .reason
  simp only [ofJson?, htimestamp, hfile, hlabel, herrors, hwarnings, hgiven, value?, Json.string?,
    Json.number?, houtcome, hreason, Option.bind_eq_bind, Option.bind_some]
  rfl

theorem readable_toJson (h : Written order e) : (e.toJson order).Readable := by
  refine .object ?_ ?_
  · rw [List.map_filterMap]
    refine List.Nodup.filterMap (fun m m' key hm hm' => ?_) h.nodup
    rw [Option.mem_def, Option.map_map, Option.map_eq_some_iff] at hm hm'
    obtain ⟨_, _, rfl⟩ := hm
    obtain ⟨_, _, hkey⟩ := hm'
    exact (Member.key_inj.mp hkey).symm
  · intro member hmember
    obtain ⟨m, -, hm⟩ := List.mem_filterMap.mp hmember
    obtain ⟨v, hv, rfl⟩ := Option.map_eq_some_iff.mp hm
    obtain ⟨errors, herrors, heq⟩ := h.errors
    obtain ⟨warnings, hwarnings, heq'⟩ := h.warnings
    cases m with
    | timestamp | file | outcome =>
      cases hv
      exact .string _
    | errors =>
      cases hv
      rw [heq]
      exact .number herrors
    | warnings =>
      cases hv
      rw [heq']
      exact .number hwarnings
    | reason =>
      obtain ⟨reason, -, rfl⟩ := Option.map_eq_some_iff.mp hv
      exact .string _

/-- **An entry is read back from its line.** -/
theorem parse?_render (h : Written order e) : parse? (e.toJson order).render = some e := by
  rw [parse?, Json.parse?_render (readable_toJson h), Option.bind_some, ofJson?_toJson h.complete]

end Entry

/-! ## lines that are added -/

variable {a : AuditLog} {h : Host} {d d' : Disk}

/-- The bytes of the log; a log that is not there has none. -/
def bytesOf (a : AuditLog) (d : Disk) : List UInt8 := (d.bytes? a.place).getD []

theorem bytesOf_appendLine {line : String} (happend : a.appendLine line d = .ok d') :
    a.bytesOf d' = a.bytesOf d ++ Text.Utf8.encode (line ++ "\n") := by
  rw [bytesOf, bytes?_place_of_appendLine happend]
  rfl

/-- A call that tells of no fault and moves nothing aside adds its line, if it has one. -/
theorem linesIn_run {c : Call} (hended : Ended (a.bytesOf h.disk))
    (hquiet : (c.run a h).console = h.console) (hstill : c.movesAside a h = false) :
    Ended (a.bytesOf (c.run a h).disk) ∧ linesIn (a.bytesOf (c.run a h).disk) =
      linesIn (a.bytesOf h.disk) ++ (c.line? h.now).toList := by
  obtain ⟨made, ready, hmade, ⟨-, rfl⟩ | ⟨hmoves, -⟩, hrest⟩ := run_of_quiet hquiet
  · have hbytes : a.bytesOf ready = a.bytesOf h.disk := by rw [bytesOf, hmade, bytesOf]
    cases hline : c.line? h.now with
    | none =>
      rw [hline] at hrest
      rw [show (c.run a h).disk = ready from hrest, hbytes]
      exact ⟨hended, (List.append_nil _).symm⟩
    | some line =>
      rw [hline] at hrest
      rw [bytesOf_appendLine hrest, hbytes, linesIn_append hended,
        linesIn_line (isLine_of_line? hline)]
      exact ⟨ended_append_line _ line, rfl⟩
  · rw [hstill] at hmoves
    cases hmoves

/-- **Calls that tell of no fault and move nothing aside add their lines**, in order. -/
theorem linesIn_runAll {calls : List (Instant × Call)} (hended : Ended (a.bytesOf h.disk))
    (hquiet : (a.runAll h calls).console = h.console) (hstill : a.moves h calls = []) :
    linesIn (a.bytesOf (a.runAll h calls).disk) = linesIn (a.bytesOf h.disk) ++ lines calls := by
  induction calls generalizing h with
  | nil => exact (List.append_nil _).symm
  | cons call calls ih =>
    obtain ⟨now, c⟩ := call
    obtain ⟨hstep, hrest⟩ := quiet_cons hquiet
    obtain ⟨hmoves, hmoves'⟩ := List.append_eq_nil_iff.mp hstill
    have hstays : c.movesAside a { h with now := now } = false := by
      cases hmove : c.movesAside a { h with now := now } with
      | false => rfl
      | true =>
        rw [hmove] at hmoves
        cases hmoves
    obtain ⟨hended', hlines⟩ := linesIn_run (h := { h with now := now }) hended hstep hstays
    have hall := ih hended' hrest hmoves'
    rw [lines_cons, ← List.append_assoc, ← hlines]
    exact hall

/-! ## a log that can be read -/

/-- The log is no directory, and it is found by its path if there is anything in it. -/
structure AtHand (a : AuditLog) (d : Disk) : Prop where
  noDirectory : d.look a.place ≠ some none
  located : a.bytesOf d ≠ [] → d.locate a.path = .ok a.place

theorem atHand_of_look (h : d.look a.place = none ∨ d.look a.place = some (some [])) :
    a.AtHand d ∧ a.bytesOf d = [] := by
  have hbytes : a.bytesOf d = [] := by
    rw [bytesOf, Disk.bytes?]
    rcases h with h | h <;> rw [h] <;> rfl
  refine ⟨⟨?_, fun hne => absurd hbytes hne⟩, hbytes⟩
  rcases h with h | h <;> rw [h] <;> simp

theorem atHand_of_appendLine {line : String} (happend : a.appendLine line d = .ok d') :
    a.AtHand d' := by
  obtain ⟨p, hp, hbytes⟩ := Except.bind_eq_ok_iff.mp happend
  obtain rfl := Disk.locate_eq_ok hp
  refine ⟨?_, fun _ => Disk.locate_of_directories (fun q => Disk.directory_of_append hbytes) hp⟩
  rw [look_appendLine happend, if_pos rfl]
  simp

theorem Selection.apply_nil (s : Selection) : s.apply [] = [] := by
  unfold apply cut
  simp

/-- **What is read of a log is what its lines are read as.** -/
theorem read_eq (hat : a.AtHand h.disk) (s : Selection) : a.read s h =
    (s.apply ((linesIn (a.bytesOf h.disk)).filterMap Entry.parse?),
      h.print (complaints (linesIn (a.bytesOf h.disk)))) := by
  have hempty (hnone : a.bytesOf h.disk = []) : (([], h) : List Entry × Host) =
      (s.apply ((linesIn (a.bytesOf h.disk)).filterMap Entry.parse?),
        h.print (complaints (linesIn (a.bytesOf h.disk)))) := by
    rw [hnone, show linesIn [] = [] from rfl, List.filterMap_nil, s.apply_nil,
      show complaints [] = [] from rfl, Host.print_nil]
  unfold read
  cases hp : h.disk.locate a.path with
  | error fault =>
    refine hempty (by_contra fun hne => ?_)
    rw [hat.located hne] at hp
    cases hp
  | ok p =>
    obtain rfl : p = a.place := Disk.locate_eq_ok hp
    simp only [Disk.exists?_eq]
    cases hlook : h.disk.look a.place with
    | none =>
      exact hempty (by rw [bytesOf, Disk.bytes?, hlook]; rfl)
    | some contents =>
      cases contents with
      | none => exact absurd hlook hat.noDirectory
      | some bytes =>
        have hbytes : h.disk.bytes? a.place = some bytes := by rw [Disk.bytes?, hlook]; rfl
        simp only [Option.isSome_some, if_true, Disk.readText_of_bytes? hbytes, bytesOf, hbytes,
          Option.getD_some]
        rfl

/-! ## what is logged -/

/-- An entry that is to be logged, the instant and the order of its members. -/
structure Write where
  now : Instant
  order : List Entry.Member
  entry : Entry

def Write.call (w : Write) : Instant × Call := (w.now, .log w.order w.entry)

variable {ws : List Write}

theorem atHand_runAll (hat : a.AtHand h.disk)
    (hquiet : (a.runAll h (ws.map Write.call)).console = h.console) :
    a.AtHand (a.runAll h (ws.map Write.call)).disk := by
  induction ws generalizing h with
  | nil => exact hat
  | cons w ws ih =>
    obtain ⟨hstep, hrest⟩ := quiet_cons hquiet
    obtain ⟨made, ready, -, -, happend⟩ := run_of_quiet (h := { h with now := w.now }) hstep
    exact ih (atHand_of_appendLine happend) hrest

theorem lines_writes (ws : List Write) :
    lines (ws.map Write.call) = ws.map fun w => (w.entry.toJson w.order).render := by
  rw [lines, List.filterMap_map]
  exact congrFun List.filterMap_eq_map ws

theorem filterMap_lines_writes (hwritten : ∀ w ∈ ws, Entry.Written w.order w.entry) :
    (lines (ws.map Write.call)).filterMap Entry.parse? = ws.map Write.entry := by
  rw [lines_writes, List.filterMap_map]
  induction ws with
  | nil => rfl
  | cons w ws ih =>
    have hw : (Entry.parse? ∘ fun w : Write => (w.entry.toJson w.order).render) w = some w.entry :=
      Entry.parse?_render (hwritten w List.mem_cons_self)
    rw [List.filterMap_cons_some hw, ih fun w' hw' => hwritten w' (List.mem_cons_of_mem w hw')]
    rfl

theorem complaints_lines_writes (hwritten : ∀ w ∈ ws, Entry.Written w.order w.entry) :
    complaints (lines (ws.map Write.call)) = [] := by
  rw [complaints, List.map_eq_nil_iff, List.filter_eq_nil_iff, lines_writes]
  intro line hline
  obtain ⟨w, hw, rfl⟩ := List.mem_map.mp hline
  simp [Entry.parse?_render (hwritten w hw)]

/-- **What is logged is what is read.** Entries that are logged one after another, in a log that is
not there or empty, are read in their order, all of them and no others, and no line is told of: as
long as no fault is told of and the log is not moved aside. -/
theorem reads_every_entry
    (hstart : h.disk.look a.place = none ∨ h.disk.look a.place = some (some []))
    (hwritten : ∀ w ∈ ws, Entry.Written w.order w.entry)
    (hquiet : (a.runAll h (ws.map Write.call)).console = h.console)
    (hstill : a.moves h (ws.map Write.call) = []) {limit : Int} (hlimit : ws.length ≤ limit) :
    a.read ⟨none, none, limit⟩ (a.runAll h (ws.map Write.call)) =
      (ws.map Write.entry, a.runAll h (ws.map Write.call)) := by
  obtain ⟨hat, hnone⟩ := atHand_of_look hstart
  have hlines : linesIn (a.bytesOf (a.runAll h (ws.map Write.call)).disk) =
      lines (ws.map Write.call) := by
    rw [linesIn_runAll (.inl hnone) hquiet hstill, hnone]
    rfl
  have hcut : Selection.apply ⟨none, none, limit⟩ (ws.map Write.entry) = ws.map Write.entry := by
    have hkeeps : (ws.map Write.entry).filter (Selection.keeps ⟨none, none, limit⟩) =
        ws.map Write.entry := List.filter_eq_self.mpr fun _ _ => rfl
    rw [Selection.apply, hkeeps, Selection.cut, List.length_map, if_pos hlimit]
  rw [read_eq (atHand_runAll hat hquiet), hlines, filterMap_lines_writes hwritten,
    complaints_lines_writes hwritten, hcut, Host.print_nil]

/-! ## texts that need escapes -/

def escapedWrites : List Write :=
  [⟨⟨1⟩, Entry.Member.all, ⟨"2025-01-01T00:00:00.000Z", "30-user", .failed, .whole 0, .whole 12,
      some "\"no\" \\ \x01 😀\n"⟩⟩,
    ⟨⟨2⟩, [.file, .timestamp, .warnings, .errors, .outcome],
      ⟨"", "\r\n\",\n\\", .rejected, .whole 9007199254740991, .whole 0, none⟩⟩,
    ⟨⟨2⟩, Entry.Member.all, ⟨"\u2028", "", .saved, .whole 0, .whole 0, some ""⟩⟩]

theorem written_escapedWrites : ∀ w ∈ escapedWrites, Entry.Written w.order w.entry := by
  intro w hw
  simp only [escapedWrites, List.mem_cons, List.not_mem_nil, or_false] at hw
  rcases hw with rfl | rfl | rfl
  · exact ⟨by decide, fun m => by cases m <;> decide, ⟨0, by decide, rfl⟩, ⟨12, by decide, rfl⟩⟩
  · exact ⟨by decide, fun m => by cases m <;> decide, ⟨9007199254740991, by decide, rfl⟩,
      ⟨0, by decide, rfl⟩⟩
  · exact ⟨by decide, fun m => by cases m <;> decide, ⟨0, by decide, rfl⟩, ⟨0, by decide, rfl⟩⟩

theorem reads_every_entry_escaped :
    (blankHost.disk.look (AuditLog.mk "/log/audit" 100000).place = none ∨
      blankHost.disk.look (AuditLog.mk "/log/audit" 100000).place = some (some [])) ∧
    (∀ w ∈ escapedWrites, Entry.Written w.order w.entry) ∧
    ((AuditLog.mk "/log/audit" 100000).runAll blankHost (escapedWrites.map Write.call)).console =
      blankHost.console ∧
    (AuditLog.mk "/log/audit" 100000).moves blankHost (escapedWrites.map Write.call) = [] ∧
    ∃ final, final = (AuditLog.mk "/log/audit" 100000).runAll blankHost
        (escapedWrites.map Write.call) ∧
      AuditLog.read ⟨"/log/audit", 100000⟩ ⟨none, none, 3⟩ final =
        (escapedWrites.map Write.entry, final) := by
  obtain ⟨hnone, hquiet, hstill⟩ :
      blankHost.disk.look (AuditLog.mk "/log/audit" 100000).place = none ∧
      ((AuditLog.mk "/log/audit" 100000).runAll blankHost (escapedWrites.map Write.call)).console =
        blankHost.console ∧
      (AuditLog.mk "/log/audit" 100000).moves blankHost (escapedWrites.map Write.call) = [] := by
    decide +kernel
  exact ⟨.inl hnone, written_escapedWrites, hquiet, hstill, _, rfl,
    reads_every_entry (.inl hnone) written_escapedWrites hquiet hstill (by decide)⟩

end QubePolicy.AuditLog
