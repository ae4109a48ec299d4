import QubePolicy.Proofs.AuditLog.Reading

/-!
# The latest entries

Each line of the log is read by itself.  Of the entries that are asked for, a limit keeps the latest
ones.

* `AuditLog.rawLines`      the lines of a text, blank ones among them;
* `AuditLog.LineRead`      what is read on a line: nothing, an entry, or something to tell of;
* `AuditLog.exists_linesRead`   the lines of a text are read so, each of them by itself;
* `AuditLog.LinesRead.unique`     and in one way only;
* `AuditLog.Latest`        the last ones of some entries, as many as a limit says;
* `AuditLog.latest_cut`    a limit keeps the latest ones, and the limit zero keeps all of them;
* `AuditLog.reads_latest`  so it is for the entries of the log that have an outcome;
* `AuditLog.zero_keeps_an_entry`   a log from which no entry is asked for gives one.
-/

namespace QubePolicy.AuditLog

/-! ## lines -/

def rawLines (text : String) : List String := (Text.splitAt '\n' text.toList).map String.ofList

def isBlank (line : String) : Bool := (Text.trim line.toList).isEmpty

theorem linesOf_eq (text : String) : linesOf text = (rawLines text).filter fun l => !isBlank l := by
  rw [linesOf, rawLines, List.filter_map]
  congr 2
  funext cs
  rw [Function.comp_apply, isBlank, String.toList_ofList]

theorem isBlank_of_isLine {line : String} (h : IsLine line) : isBlank line = false :=
  List.isEmpty_eq_false_iff.mpr h.visible

def textOf (lines : List String) : String :=
  String.ofList (Text.joinWith '\n' (lines.map String.toList))

theorem rawLines_textOf {lines : List String} (hne : lines ≠ [])
    (h : ∀ line ∈ lines, '\n' ∉ line.toList) : rawLines (textOf lines) = lines := by
  rw [rawLines, textOf, String.toList_ofList,
    Text.splitAt_joinWith (by simpa using hne) (List.forall_mem_map.mpr h), List.map_map]
  exact List.map_id'' (fun _ => String.ofList_toList) lines

/-- What is read on a line: the entry that it holds, if it holds one, and what is told of it. -/
inductive LineRead (line : String) : Option Entry → Option Console.Entry → Prop
  | blank : isBlank line = true → LineRead line none none
  | accepted {e : Entry} : isBlank line = false → Entry.parse? line = some e →
      LineRead line (some e) none
  | rejected : isBlank line = false → Entry.parse? line = none →
      LineRead line none (some (Console.err s!"Warning: Invalid entry in audit log: {line}"))

theorem LineRead.entry {order : List Entry.Member} {e : Entry} (h : Entry.Written order e) :
    LineRead (e.toJson order).render (some e) none :=
  .accepted (isBlank_of_isLine (isLine_entry order e)) (Entry.parse?_render h)

theorem LineRead.unique {line : String} {e e' : Option Entry} {told told' : Option Console.Entry}
    (h : LineRead line e told) (h' : LineRead line e' told') : (e, told) = (e', told') := by
  cases h <;> cases h' <;> simp_all

def LinesRead (lines : List String) (reads : List (Option Entry × Option Console.Entry)) : Prop :=
  List.Forall₂ (fun line r => LineRead line r.1 r.2) lines reads

/-- **Each line is read by itself**: it adds what is read on it to the entries and to what is told
of, whatever the other lines are. -/
theorem exists_linesRead (lines : List String) :
    ∃ reads, LinesRead lines reads ∧
      (lines.filter fun l => !isBlank l).filterMap Entry.parse? = reads.filterMap Prod.fst ∧
      complaints (lines.filter fun l => !isBlank l) = reads.filterMap Prod.snd := by
  induction lines with
  | nil => exact ⟨[], .nil, rfl, rfl⟩
  | cons line lines ih =>
    obtain ⟨reads, hreads, hentries, htold⟩ := ih
    cases hblank : isBlank line with
    | true =>
      refine ⟨(none, none) :: reads, .cons (.blank hblank) hreads, ?_, ?_⟩
      · rw [List.filter_cons_of_neg (by simp [hblank]), hentries]
        rfl
      · rw [List.filter_cons_of_neg (by simp [hblank]), htold]
        rfl
    | false =>
      rw [List.filter_cons_of_pos (by simp [hblank])]
      cases hparse : Entry.parse? line with
      | some e =>
        refine ⟨(some e, none) :: reads, .cons (.accepted hblank hparse) hreads, ?_, ?_⟩
        · rw [List.filterMap_cons_some hparse, hentries]
          rfl
        · rw [complaints, List.filter_cons_of_neg (by simp [hparse])]
          exact htold
      | none =>
        refine ⟨(none, some _) :: reads, .cons (.rejected hblank hparse) hreads, ?_, ?_⟩
        · rw [List.filterMap_cons_none hparse, hentries]
          rfl
        · rw [complaints, List.filter_cons_of_pos (by simp [hparse]), List.map_cons]
          exact congrArg _ htold

/-- **A line is read in one way only.** -/
theorem LinesRead.unique {lines : List String}
    {reads reads' : List (Option Entry × Option Console.Entry)} (h : LinesRead lines reads)
    (h' : LinesRead lines reads') : reads = reads' := by
  induction h generalizing reads' with
  | nil =>
    cases h'
    rfl
  | cons hline _ ih =>
    obtain _ | ⟨hline', hrest'⟩ := h'
    exact congrArg₂ List.cons (hline.unique hline') (ih hrest')

/-! ## limits -/

/-- The last ones of some entries: as many as the limit says, or all if there are fewer. The limit
zero keeps all of them. -/
structure Latest (limit : Nat) (es latest : List Entry) : Prop where
  suffix : latest <:+ es
  length : latest.length = if limit = 0 then es.length else min limit es.length

/-- **A limit keeps the latest entries.** -/
theorem latest_cut (limit : Nat) (es : List Entry) : Latest limit es (Selection.cut limit es) := by
  rw [Selection.cut]
  by_cases hfew : (es.length : Int) ≤ limit
  · rw [if_pos hfew]
    refine ⟨List.suffix_refl es, ?_⟩
    split <;> omega
  · rw [if_neg hfew]
    by_cases hzero : limit = 0
    · subst hzero
      exact ⟨List.suffix_refl es, rfl⟩
    · rw [if_pos (by omega), Int.toNat_natCast]
      refine ⟨List.drop_suffix _ es, ?_⟩
      rw [if_neg hzero, List.length_drop]
      omega

variable {a : AuditLog} {h : Host}

/-- **Reading keeps the latest entries within the limit.** Each line of the log is read by itself: a
blank one gives nothing, one that holds an entry gives the entry, and any other one is told of once.
Of these entries those of an outcome are kept, or all if none is asked for, and of those the last
ones, in their order: as many as the limit says, or all if there are fewer. The limit zero is no
limit. -/
theorem reads_latest (hat : a.AtHand h.disk) (outcome : Option Outcome) (limit : Nat) :
    ∃ reads latest, LinesRead (rawLines (Text.Utf8.decode (a.bytesOf h.disk))) reads ∧
      Latest limit ((reads.filterMap Prod.fst).filter fun e => outcome.all (e.outcome == ·))
        latest ∧
      a.read ⟨outcome, none, limit⟩ h = (latest, h.print (reads.filterMap Prod.snd)) := by
  obtain ⟨reads, hreads, hentries, htold⟩ :=
    exists_linesRead (rawLines (Text.Utf8.decode (a.bytesOf h.disk)))
  have hkeeps : Selection.keeps ⟨outcome, none, limit⟩ =
      fun e => outcome.all (e.outcome == ·) := by
    funext e
    cases outcome <;> simp [Selection.keeps]
  refine ⟨reads, _, hreads, latest_cut limit _, ?_⟩
  rw [read_eq hat, linesIn, linesOf_eq, hentries, htold, Selection.apply, hkeeps]

/-! ## a log of all kinds of lines -/

def hostWith (text : String) : Host :=
  { blankHost with disk := ⟨.directory [("audit.log", .file (Text.Utf8.encode text))]⟩ }

theorem atHand_hostWith (text : String) : smallLog.AtHand (hostWith text).disk ∧
    smallLog.bytesOf (hostWith text).disk = Text.Utf8.encode text := by
  have hplace : smallLog.place = ⟨["audit.log"]⟩ := by decide +kernel
  have hpieces : Path.pieces smallLog.path = ["", "audit.log"] := by decide +kernel
  have hlook : (hostWith text).disk.look smallLog.place = some (some (Text.Utf8.encode text)) := by
    rw [hplace]
    rfl
  refine ⟨⟨by simp [hlook], fun _ => ?_⟩, by rw [bytesOf, Disk.bytes?, hlook]; rfl⟩
  rw [Disk.locate, if_neg (by decide), if_neg (by decide), hpieces, hplace]
  rfl

def failedEntry : Entry := ⟨"", "c", .failed, .whole 1, .whole 0, some "disk full"⟩

theorem written_whole (timestamp file : String) (outcome : Outcome) (reason : Option String)
    {errors warnings : Nat} (herrors : errors < Binary64.mantissaBound)
    (hwarnings : warnings < Binary64.mantissaBound) :
    Entry.Written Entry.Member.all
      ⟨timestamp, file, outcome, .whole errors, .whole warnings, reason⟩ :=
  ⟨by decide, fun m _ => by cases m <;> decide, ⟨errors, herrors, rfl⟩,
    ⟨warnings, hwarnings, rfl⟩⟩

theorem written_savedEntry (file : String) : Entry.Written Entry.Member.all (savedEntry file) :=
  written_whole _ _ _ _ (by decide) (by decide)

/-- Blank lines, entries of two outcomes and a line that holds none. -/
def mixedLines : List String :=
  ["", ((savedEntry "a").toJson Entry.Member.all).render, "not json",
    ((savedEntry "b").toJson Entry.Member.all).render, " \r",
    (failedEntry.toJson Entry.Member.all).render]

theorem linesRead_mixedLines : LinesRead mixedLines
    [(none, none), (some (savedEntry "a"), none),
      (none, some (Console.err "Warning: Invalid entry in audit log: not json")),
      (some (savedEntry "b"), none), (none, none), (some failedEntry, none)] :=
  .cons (.blank rfl) (.cons (.entry (written_savedEntry "a"))
    (.cons (.rejected rfl (by decide +kernel)) (.cons (.entry (written_savedEntry "b"))
      (.cons (.blank rfl) (.cons (.entry (written_whole _ _ _ _ (by decide) (by decide))) .nil)))))

theorem reads_latest_mixed :
    smallLog.AtHand (hostWith (textOf mixedLines)).disk ∧
    smallLog.read ⟨some .saved, none, 1⟩ (hostWith (textOf mixedLines)) =
      ([savedEntry "b"], (hostWith (textOf mixedLines)).print
        [Console.err "Warning: Invalid entry in audit log: not json"]) := by
  obtain ⟨hat, hbytes⟩ := atHand_hostWith (textOf mixedLines)
  have hlines : rawLines (textOf mixedLines) = mixedLines := by
    refine rawLines_textOf (List.cons_ne_nil _ _) ?_
    simp only [mixedLines, List.forall_mem_cons]
    exact ⟨by decide, (isLine_entry _ _).lineFeed, by decide, (isLine_entry _ _).lineFeed,
      by decide, (isLine_entry _ _).lineFeed, fun _ h => by cases h⟩
  obtain ⟨reads, latest, hreads, hlatest, hread⟩ := reads_latest hat (some .saved) 1
  rw [hbytes, Text.Utf8.decode_encode, hlines] at hreads
  rw [hreads.unique linesRead_mixedLines] at hlatest hread
  have hlatest : latest = [savedEntry "b"] := by
    rw [List.suffix_iff_eq_drop.mp hlatest.suffix, hlatest.length]
    rfl
  exact ⟨hat, hlatest ▸ hread⟩

/-- **The limit zero keeps an entry**, though none is asked for. -/
theorem zero_keeps_an_entry :
    smallLog.read ⟨none, none, 0⟩
      (hostWith ((savedEntry "a").toJson Entry.Member.all).render) =
        ([savedEntry "a"], hostWith ((savedEntry "a").toJson Entry.Member.all).render) := by
  obtain ⟨hat, hbytes⟩ := atHand_hostWith ((savedEntry "a").toJson Entry.Member.all).render
  have hparse := Entry.parse?_render (written_savedEntry "a")
  rw [read_eq hat, hbytes, linesIn, Text.Utf8.decode_encode, linesOf_line (isLine_entry _ _),
    List.filterMap_cons_some hparse, complaints, List.filter_cons_of_neg (by simp [hparse])]
  rfl

end QubePolicy.AuditLog
