import QubePolicy.AuditLog
import QubePolicy.Proofs.Store.Writing

/-!
# An audit log outside the store

Recording touches the log, the place it is moved aside to, and directories on the way.

* `Disk.locate_eq_ok`        the place that a text is found at is the one it names;
* `Disk.locate_of_directories`   it is found there as long as no directory is taken away;
* `AuditLog.disk_log`        the steps of logging, as far as they come;
* `AuditLog.find_log`        nothing apart from the places of the log is touched once the directories
                             on the way are made;
* `AuditLog.Outside`         the log lies apart from the directories of a store, neither in one of them
                             nor above one, also when it is moved aside;
* `AuditLog.bytes?_record`, `listing_record`   recording changes no file and no listing apart from the
                             places of the log;
* `AuditLog.Clear`           besides, no policy file can come to lie on the way to the log;
* `AuditLog.look_record`     then recording touches nothing at the places of policy files;
* `AuditLog.clear_of_outside`  none can if the path of the log has no `..`.
-/

namespace QubePolicy

namespace Path

theorem resolve_root (text : String) : root.resolve text = ⟨(pieces text).foldl step []⟩ := by
  rw [resolve]
  split <;> rfl

theorem prefix_step {piece : String} (h : piece ≠ "..") (names : List String) :
    names <+: step names piece := by
  rw [step, if_neg h]
  split
  · exact List.prefix_refl names
  · exact List.prefix_append _ _

theorem prefix_foldl_step {pieces : List String} (h : ".." ∉ pieces) (names : List String) :
    names <+: pieces.foldl step names := by
  induction pieces generalizing names with
  | nil => exact List.prefix_refl names
  | cons piece pieces ih =>
    rw [List.mem_cons, not_or] at h
    exact (prefix_step (Ne.symm h.1) names).trans (ih h.2 _)

/-- The pieces of the text of a directory are the first ones of the text of what is in it, but for
those of the two texts that stand for no piece at all. -/
theorem pieces_parentText (text : String) : pieces (parentText text) = ["."] ∨
    pieces (parentText text) = ["", ""] ∨
    ∃ rest, pieces text = pieces (parentText text) ++ rest := by
  unfold parentText
  split
  · split
    · exact .inr (.inl (by decide))
    · exact .inl (by decide)
  · exact .inr (.inl (by decide))
  · next c before _ hbefore =>
    refine .inr (.inr ?_)
    obtain ⟨slashes, hslashes⟩ := List.dropWhile_suffix (· == '/') (l := text.toList.reverse)
    obtain ⟨last, hlast⟩ := List.dropWhile_suffix (· != '/')
      (l := text.toList.reverse.dropWhile (· == '/'))
    have hc : c = '/' := by
      have hne : (text.toList.reverse.dropWhile (· == '/')).dropWhile (· != '/') ≠ [] := by
        rw [hbefore]
        exact List.cons_ne_nil c before
      have hhead := List.head_dropWhile_not (· != '/') hne
      simpa [hbefore] using hhead
    have htext : text.toList = before.reverse ++ '/' :: (slashes ++ last).reverse := by
      rw [← List.reverse_reverse text.toList, ← hslashes, ← hlast, hbefore, hc]
      simp
    refine ⟨(Text.splitAt '/' (slashes ++ last).reverse).map String.ofList, ?_⟩
    rw [pieces, htext, Text.splitAt_append, List.map_append, pieces, String.toList_ofList]

end Path

namespace Disk

variable {d d' : Disk} {p q : Path} {text : String}

theorem follow_eq_ok {names pieces : List String} (h : d.follow names pieces = .ok p) :
    p = ⟨pieces.foldl Path.step names⟩ := by
  induction pieces generalizing names with
  | nil =>
    cases h
    rfl
  | cons piece pieces ih =>
    rw [follow] at h
    split at h
    · exact ih h
    · cases h
    · cases h

/-- What a text is found at is the place that it names from the root. -/
theorem locate_eq_ok (h : d.locate text = .ok p) : p = Path.root.resolve text := by
  unfold locate at h
  split at h
  · cases h
  · split at h
    · cases h
    · rw [follow_eq_ok h, Path.resolve_root]

theorem follow_of_directories (hdirectories : ∀ q, d.look q = some none → d'.look q = some none)
    {names pieces : List String} (hp : d.follow names pieces = .ok p) :
    d'.follow names pieces = .ok p := by
  induction pieces generalizing names with
  | nil => exact hp
  | cons piece pieces ih =>
    rw [follow] at hp ⊢
    split at hp
    · next entries hfind =>
      obtain ⟨entries', hfind'⟩ :=
        exists_find_of_directory (hdirectories ⟨names⟩ (look_of_find hfind))
      rw [hfind']
      exact ih hp
    · cases hp
    · cases hp

theorem locate_of_directories (hdirectories : ∀ q, d.look q = some none → d'.look q = some none)
    (hp : d.locate text = .ok p) : d'.locate text = .ok p := by
  unfold locate at hp ⊢
  split at hp
  · cases hp
  · split at hp
    · cases hp
    · next hne hinvalid =>
      rw [if_neg hne, if_neg hinvalid]
      exact follow_of_directories hdirectories hp

def stops (names : List String) : List String → List Path
  | [] => [⟨names⟩]
  | piece :: pieces => ⟨names⟩ :: stops (Path.step names piece) pieces

theorem prefix_of_mem_stops {names pieces : List String} {stop : Path} (h : ".." ∉ pieces)
    (hstop : stop ∈ stops names pieces) : stop.names <+: pieces.foldl Path.step names := by
  induction pieces generalizing names with
  | nil =>
    rw [List.mem_singleton.mp hstop]
    exact List.prefix_refl names
  | cons piece pieces ih =>
    rcases List.mem_cons.mp hstop with rfl | hstop
    · exact Path.prefix_foldl_step h names
    · rw [List.mem_cons, not_or] at h
      exact ih h.2 hstop

theorem makePieces_leaves {α : Type} (what : Disk → α) {names pieces : List String}
    (hstop : ∀ stop ∈ stops names pieces, ∀ {d d' : Disk}, d.makeDirectories stop = .ok d' →
      what d' = what d) (h : d.makePieces names pieces = .ok d') : what d' = what d := by
  induction pieces generalizing d names with
  | nil => exact hstop _ List.mem_cons_self h
  | cons piece pieces ih =>
    obtain ⟨made, hmade, h⟩ := Except.bind_eq_ok_iff.mp h
    rw [ih (fun stop hmem => hstop stop (List.mem_cons_of_mem _ hmem)) h,
      hstop _ List.mem_cons_self hmade]

theorem bytes?_makeDirectoriesAt (h : d.makeDirectoriesAt text = .ok d') (q : Path) :
    d'.bytes? q = d.bytes? q :=
  makePieces_leaves (·.bytes? q) (fun _ _ _ _ hmake => bytes?_makeDirectories hmake q) h

end Disk

namespace AuditLog

variable {a : AuditLog} {h : Host} {d d' : Disk} {now : Instant} {q : Path}

/-! ## the steps of logging -/

def place (a : AuditLog) : Path := Path.root.resolve a.path

/-- The place that the log is moved aside to at an instant. -/
def asidePlace (a : AuditLog) (now : Instant) : Path := Path.root.resolve (a.asidePath now)

theorem disk_rotate (a : AuditLog) (h : Host) :
    (a.rotate h).disk = h.disk ∨ a.moveAside h.now h.disk = .ok (a.rotate h).disk := by
  unfold rotate
  split
  · cases hmoved : a.moveAside h.now h.disk with
    | ok moved => exact .inr rfl
    | error e => exact .inl rfl
  · exact .inl rfl

/-- Directories are made, the log may be moved aside, and a line may be appended to it. -/
theorem disk_log (order : List Entry.Member) (e : Entry) :
    (a.log order e h).disk = h.disk ∨ ∃ made ready,
      h.disk.makeDirectoriesAt (Path.parentText a.path) = .ok made ∧
      (ready = made ∨ a.moveAside h.now made = .ok ready) ∧
      ((a.log order e h).disk = ready ∨
        a.appendLine (e.toJson order).render ready = .ok (a.log order e h).disk) := by
  unfold log
  cases hmake : h.disk.makeDirectoriesAt (Path.parentText a.path) with
  | error fault => exact .inl rfl
  | ok made =>
    have hready : (if a.isFull made then a.rotate { h with disk := made }
        else { h with disk := made }).disk = made ∨ a.moveAside h.now made =
          .ok (if a.isFull made then a.rotate { h with disk := made }
            else { h with disk := made }).disk := by
      split
      · exact disk_rotate a { h with disk := made }
      · exact .inl rfl
    refine .inr ⟨made, _, rfl, hready, ?_⟩
    simp only
    generalize (if a.isFull made then a.rotate { h with disk := made }
      else { h with disk := made }) = ready
    cases happend : a.appendLine (e.toJson order).render ready.disk with
    | ok written => exact .inr rfl
    | error fault => exact .inl rfl

theorem moveAside_eq_ok (hmove : a.moveAside now d = .ok d') :
    d.rename a.place (a.asidePlace now) = .ok d' := by
  obtain ⟨source, hsource, hmove⟩ := Except.bind_eq_ok_iff.mp hmove
  obtain ⟨target, htarget, hmove⟩ := Except.bind_eq_ok_iff.mp hmove
  rwa [Disk.locate_eq_ok hsource, Disk.locate_eq_ok htarget] at hmove

theorem appendLine_eq_ok {line : String} (happend : a.appendLine line d = .ok d') :
    d.append a.place (Text.Utf8.encode (line ++ "\n")) = .ok d' := by
  obtain ⟨p, hp, happend⟩ := Except.bind_eq_ok_iff.mp happend
  rwa [Disk.locate_eq_ok hp] at happend

/-! ## recording -/

/-- The log is apart from the place, also if it is moved aside at the instant. -/
structure Apart (a : AuditLog) (now : Instant) (q : Path) : Prop where
  log : a.place.Apart q
  aside : (a.asidePlace now).Apart q

/-- **Logging touches nothing apart from the places of the log**, once the directories on the way
are made. -/
theorem find_log (order : List Entry.Member) (e : Entry) (hq : a.Apart h.now q) :
    (a.log order e h).disk.find q = h.disk.find q ∨
      ∃ made, h.disk.makeDirectoriesAt (Path.parentText a.path) = .ok made ∧
        (a.log order e h).disk.find q = made.find q := by
  rcases disk_log (a := a) (h := h) order e with hdisk | ⟨made, ready, hmade, hready, hdisk⟩
  · exact .inl (by rw [hdisk])
  · refine .inr ⟨made, hmade, ?_⟩
    have hmoved : ready.find q = made.find q := by
      rcases hready with rfl | hmove
      · rfl
      · exact Disk.find_rename_of_apart (moveAside_eq_ok hmove) hq.log hq.aside
    rcases hdisk with hdisk | happend
    · rw [hdisk, hmoved]
    · rw [Disk.find_append_of_apart (appendLine_eq_ok happend) hq.log, hmoved]

theorem bytes?_record (file : String) (outcome : Outcome) (diagnostics : List Diagnostic)
    (reason : Option String) (hq : a.Apart h.now q) :
    (a.record file outcome diagnostics reason h).disk.bytes? q = h.disk.bytes? q := by
  unfold record
  rcases find_log (h := h) Entry.Member.all _ hq with hfind | ⟨made, hmade, hfind⟩
  · exact Disk.bytes?_congr hfind
  · rw [Disk.bytes?_congr hfind]
    exact Disk.bytes?_makeDirectoriesAt hmade q

theorem listing_record (file : String) (outcome : Outcome) (diagnostics : List Diagnostic)
    (reason : Option String) (hq : a.Apart h.now q) :
    (a.record file outcome diagnostics reason h).disk.listing q = h.disk.listing q := by
  unfold record
  rcases find_log (h := h) Entry.Member.all _ hq with hfind | ⟨made, hmade, hfind⟩
  · exact Disk.listing_congr hfind
  · rw [Disk.listing_congr hfind]
    exact Disk.makePieces_leaves (·.listing q) (fun _ _ _ _ hmake =>
      Disk.listing_makeDirectories hmake q) hmade

def way (a : AuditLog) : List Path := Disk.stops [] (Path.pieces (Path.parentText a.path))

theorem look_record (file : String) (outcome : Outcome) (diagnostics : List Diagnostic)
    (reason : Option String) (hq : a.Apart h.now q) (hway : ∀ stop ∈ a.way, ¬q.Contains stop) :
    (a.record file outcome diagnostics reason h).disk.look q = h.disk.look q := by
  unfold record
  rcases find_log (h := h) Entry.Member.all _ hq with hfind | ⟨made, hmade, hfind⟩
  · exact Disk.look_congr hfind
  · rw [Disk.look_congr hfind]
    exact Disk.makePieces_leaves (·.look q)
      (fun stop hstop _ _ hmake => Disk.look_makeDirectories hmake (hway stop hstop)) hmade

theorem now_record (file : String) (outcome : Outcome) (diagnostics : List Diagnostic)
    (reason : Option String) (h : Host) :
    (a.record file outcome diagnostics reason h).now = h.now := by
  have hrotate (h : Host) : (a.rotate h).now = h.now := by
    unfold rotate
    split
    · split <;> rfl
    · rfl
  unfold record log
  split
  · rfl
  · simp only
    split <;> split
    · exact hrotate _
    · rfl
    · exact hrotate _
    · rfl

/-! ## outside a store -/

/-- The log lies apart from the directories of the store, also if it is moved aside now. This goes both
ways: it is in none of them, and none of them is in a directory at the place of the log. -/
def Outside (a : AuditLog) (s : Store) (now : Instant) : Prop :=
  ∀ directory ∈ s.directories, a.Apart now directory

theorem Outside.path {s : Store} {now : Instant} (hout : a.Outside s now) {name : String}
    (hq : s.path name = .ok q) : a.Apart now q := by
  obtain ⟨directory, hdirectory, file, rfl⟩ := Store.exists_child_of_path hq
  obtain ⟨hlog, haside⟩ := hout directory hdirectory
  exact ⟨hlog.child file, haside.child file⟩

/-- The log lies outside the store, and no policy file can come to lie on the way to it. -/
structure Clear (a : AuditLog) (s : Store) (now : Instant) : Prop where
  outside : a.Outside s now
  way : ∀ stop ∈ a.way, s.Spares stop

theorem contains_place_of_mem_way (hpath : ".." ∉ Path.pieces a.path) {stop : Path}
    (hstop : stop ∈ a.way) : stop.Contains a.place := by
  rw [Path.Contains, place, Path.resolve_root]
  rcases Path.pieces_parentText a.path with hparent | hparent | ⟨rest, hrest⟩
  · rw [way, hparent] at hstop
    exact (Disk.prefix_of_mem_stops (by decide) hstop).trans List.nil_prefix
  · rw [way, hparent] at hstop
    exact (Disk.prefix_of_mem_stops (by decide) hstop).trans List.nil_prefix
  · rw [hrest, List.mem_append, not_or] at hpath
    rw [hrest, List.foldl_append]
    exact (Disk.prefix_of_mem_stops hpath.1 hstop).trans (Path.prefix_foldl_step hpath.2 _)

/-- **A log outside the store is clear of it**, unless its path turns back on the way. -/
theorem clear_of_outside {s : Store} (hpath : ".." ∉ Path.pieces a.path)
    (hout : a.Outside s now) : a.Clear s now := by
  refine ⟨hout, fun stop hstop name p hp hcontains => ?_⟩
  exact (hout.path hp).log.2 (hcontains.trans (contains_place_of_mem_way hpath hstop))

end AuditLog

end QubePolicy
