import QubePolicy.Proofs.Session.Preview
import QubePolicy.Proofs.Session.SaveGate

/-!
# The bytes of a file that is saved as it was opened

A file is held as text.  Saving one that nobody has edited writes what its bytes are read as, which
is the same bytes only where they are UTF-8.

* `Text.Utf8.reencode`         bytes after they are read and written;
* `Text.Utf8.reencode_eq_iff`  they are the same if they are UTF-8;
* `Text.Utf8.reencode_lines`   a line of UTF-8 stays the same, whatever the lines around it;
* `Session.Holds`              a session holds a file open;
* `Session.Command.Leaves`     a command that leaves the file with a name open as it is;
* `Workspace.open_save_bytes`  the bytes after a file is opened and saved;
* `Workspace.open_save_loses_bytes`   bytes that are not UTF-8 are lost.
-/

namespace QubePolicy

/-! ## bytes read and written -/

namespace Text.Utf8

variable {bytes : List UInt8}

/-- The bytes of the text that bytes are read as. -/
def reencode (bytes : List UInt8) : List UInt8 := encode (decode bytes)

/-- **Bytes stay the same just when they are UTF-8.** -/
theorem reencode_eq_iff : reencode bytes = bytes ↔ ∃ text, encode text = bytes := by
  constructor
  · exact fun h => ⟨decode bytes, h⟩
  · rintro ⟨text, rfl⟩
    rw [reencode, decode_encode]

theorem encode_append (a b : String) : encode (a ++ b) = encode a ++ encode b := by
  rw [encode, encode, encode, String.toList_append, List.flatMap_append]

/-- Lines are read and written apart from what is behind them. -/
theorem reencode_append {front : List UInt8} (h : front = [] ∨ front.getLast? = some 10)
    (rest : List UInt8) : reencode (front ++ rest) = reencode front ++ reencode rest := by
  rcases h with rfl | h
  · rfl
  · rw [reencode, (decode_append_of_lineFeed h).2, encode_append]
    rfl

/-- **A line of UTF-8 stays the same**, whatever the lines around it. -/
theorem reencode_lines {front line back : List UInt8}
    (hfront : front = [] ∨ front.getLast? = some 10) (hline : back = [] ∨ line.getLast? = some 10)
    (htext : ∃ text, encode text = line) :
    reencode (front ++ line ++ back) = reencode front ++ line ++ reencode back := by
  have hsame : reencode line = line := reencode_eq_iff.mpr htext
  rw [List.append_assoc, reencode_append hfront, List.append_assoc]
  congr 1
  rcases hline with rfl | hline
  · rw [List.append_nil, hsame]
    exact (List.append_nil line).symm
  · rw [reencode_append (.inr hline), hsame]

end Text.Utf8

/-! ## files that stay open -/

namespace Session

variable {s s' : Session} {host host' : Host} {name : String} {f : PolicyFile} {p : Path}

def Holds (s : Session) (name : String) (f : PolicyFile) : Prop :=
  (s.find? name).map OpenFile.file = some f

/-- The command neither edits nor closes nor resets the file with the name. -/
def Command.Leaves (name : String) (c : Command) : Prop :=
  c.edited? ≠ some name ∧ c ≠ .close name ∧ c ≠ .reset name

theorem Holds.put (h : s.Holds name f) {o : OpenFile} (ho : o.file.name = name → o.file = f) :
    (s.put o).Holds name f := by
  rw [Holds, find?_put]
  split
  · next hname => rw [Option.map_some, ho hname.symm]
  · exact h

theorem Holds.put_of_ne (h : s.Holds name f) {o : OpenFile} (ho : o.file.name ≠ name) :
    (s.put o).Holds name f :=
  h.put fun hname => absurd hname ho

theorem Holds.save (h : s.Holds name f) {other : String}
    (hsave : s.save host other = (.ok (), s', host')) : s'.Holds name f := by
  obtain ⟨o, p, written, ho, -, -, -, -, rfl, -⟩ := save_eq_ok hsave
  refine h.put fun hname => ?_
  have hother : other = name := (name_of_find? ho).symm.trans hname
  rw [Holds, ← hother, ho] at h
  exact Option.some.inj h

theorem Holds.effect (h : s.Holds name f) {d : Disk} {c : Command} (hc : c.Leaves name)
    (heffect : Effect s d c s') : s'.Holds name f := by
  obtain ⟨hedited, hclose, hreset⟩ := hc
  have hopen {other : String} (hnone : s.find? other = none) : other ≠ name := by
    rintro rfl
    rw [Holds, hnone] at h
    cases h
  cases heffect with
  | asked | held => exact h
  | @opened other _ o hnone ho =>
    obtain ⟨text, -, rfl⟩ := loaded_eq_ok_iff.mp ho
    exact h.put_of_ne (hopen hnone)
  | @created other _ hnone => exact h.put_of_ne (hopen hnone)
  | @closed other o ho =>
    have hother : name ≠ other := fun hname => hclose (hname ▸ rfl)
    rw [Holds, find?_remove, if_neg hother]
    exact h
  | @emptied other o ho =>
    exact h.put_of_ne fun hname => hreset (hname ▸ rfl)
  | @reloaded other o o' ho hnew ho' =>
    obtain ⟨text, -, rfl⟩ := loaded_eq_ok_iff.mp ho'
    exact h.put_of_ne fun hname => hreset (hname ▸ rfl)
  | @edited c other o g hc ho hkeeps =>
    refine h.put_of_ne fun hname => hedited ?_
    rw [hc, ← hname]
    exact congrArg some (hkeeps.name.trans (name_of_find? ho)).symm

/-- **A command that leaves a file leaves it open as it is**, whether it succeeds or not. -/
theorem Holds.run (h : s.Holds name f) {c : Command} (hc : c.Leaves name) (host : Host) :
    (s.run host c).2.1.Holds name f := by
  rcases hrun : s.run host c with ⟨result, s', host'⟩
  cases result with
  | ok reply =>
    rcases run_eq_ok hrun with ⟨other, -, hsave⟩ | ⟨-, heffect⟩
    · exact h.save hsave
    · exact h.effect hc heffect
  | error e =>
    rw [session_of_run_eq_error hrun]
    exact h

theorem holds_open {allowIncludes : Option Bool} {bytes : List UInt8}
    (hnone : s.find? name = none) (hp : s.store.path name = .ok p)
    (hbytes : host.disk.bytes? p = some bytes) :
    (s.run host (.open name allowIncludes)).2.1.Holds name
      (.ofText name (allowIncludes.getD s.allowIncludes) (Text.Utf8.decode bytes)) := by
  have htext : s.store.textOf? host.disk name = some (Text.Utf8.decode bytes) :=
    Store.textOf?_eq_some_iff.mpr ⟨p, hp, Disk.readText_of_bytes? hbytes⟩
  let text := Text.Utf8.decode bytes
  let o : OpenFile :=
    ⟨.ofText name (allowIncludes.getD s.allowIncludes) text, .ofText text, text⟩
  have hloaded : s.loaded host.disk name (allowIncludes.getD s.allowIncludes) = .ok o :=
    loaded_eq_ok_iff.mpr ⟨text, htext, rfl⟩
  have hopen : s.open host.disk name allowIncludes = (.ok o.file, s.put o) := by
    rw [Session.open, hnone]
    simp only
    rw [hloaded]
  have hrun : s.run host (.open name allowIncludes) = (.ok (.file o.file), s.put o, host) := by
    have hne (other : String) : Command.open name allowIncludes ≠ .save other := by
      intro hsave
      cases hsave
    rw [run_of_ne_save hne, answer, hopen]
    rfl
  have hfind : (s.put o).find? name = some o := find?_put_self s rfl
  rw [hrun]
  exact congrArg (Option.map OpenFile.file) hfind

theorem bytes?_save (h : s.Holds name f) (hout : s.AuditsOutside host.now)
    (hp : s.store.path name = .ok p) (hsave : s.save host name = (.ok (), s', host')) :
    host'.disk.bytes? p = some (Text.Utf8.encode f.text) := by
  obtain ⟨o, q, written, ho, -, hq, -, hwritten, -, rfl⟩ := save_eq_ok hsave
  obtain rfl : p = q := Except.ok.inj (hp.symm.trans hq)
  rw [Holds, ho] at h
  obtain rfl : o.file = f := Option.some.inj h
  rw [bytes?_record { host with disk := written } hout hp, Store.bytes?_writeAt hwritten, if_pos rfl]

end Session

namespace Workspace

variable {ι : Type} [DecidableEq ι] {i : ι} {name : String} {f : PolicyFile}

theorem holds_run {w : Workspace ι} (h : (w.sessions i).Holds name f) {es : List (Event ι)}
    (hleaves : ∀ c, .command i c ∈ es → c.Leaves name) :
    ((w.run es).sessions i).Holds name f :=
  holds_after_commands (P := fun s => s.Holds name f) (fun _ host _ hc hs => hs.run hc host) h
    hleaves

/-- **What is stored after a file is opened and saved** without an edit in between is what its bytes
are read as; those are the same bytes just when they are UTF-8, and line by line they are the same
wherever a line is UTF-8. -/
theorem open_save_bytes {w : Workspace ι} (hclosed : (w.sessions i).find? name = none) {p : Path}
    {bytes : List UInt8} (hp : (w.sessions i).store.path name = .ok p)
    (hbytes : w.host.disk.bytes? p = some bytes) (allowIncludes : Option Bool)
    {es : List (Event ι)} (hleaves : ∀ c, .command i c ∈ es → c.Leaves name)
    (hout : ∀ a, (w.sessions i).audit = some a → a.Outside (w.sessions i).store
      (w.run (.command i (.open name allowIncludes) :: es)).host.now)
    {s' : Session} {host' : Host}
    (hsave : ((w.run (.command i (.open name allowIncludes) :: es)).sessions i).save
      (w.run (.command i (.open name allowIncludes) :: es)).host name = (.ok (), s', host')) :
    host'.disk.bytes? p = some (Text.Utf8.reencode bytes) ∧
    (host'.disk.bytes? p = some bytes ↔ ∃ text, Text.Utf8.encode text = bytes) ∧
    ∀ front line back, bytes = front ++ line ++ back →
      (front = [] ∨ front.getLast? = some 10) → (back = [] ∨ line.getLast? = some 10) →
      (∃ text, Text.Utf8.encode text = line) → host'.disk.bytes? p =
        some (Text.Utf8.reencode front ++ line ++ Text.Utf8.reencode back) := by
  let opening : Event ι := .command i (.open name allowIncludes)
  obtain ⟨hstore, haudit⟩ : ((w.run (opening :: es)).sessions i).store = (w.sessions i).store ∧
      ((w.run (opening :: es)).sessions i).audit = (w.sessions i).audit :=
    holds_after_run (Session.invariant_places _ _) ⟨rfl, rfl⟩ (opening :: es)
  have hopened : ((w.step opening).sessions i).Holds name
      (.ofText name (allowIncludes.getD (w.sessions i).allowIncludes)
        (Text.Utf8.decode bytes)) := by
    show (Function.update w.sessions i _ i).Holds name _
    rw [Function.update_self]
    exact Session.holds_open hclosed hp hbytes
  have hheld : ((w.run (opening :: es)).sessions i).Holds name _ := holds_run hopened hleaves
  have hout' : ((w.run (opening :: es)).sessions i).AuditsOutside
      (w.run (opening :: es)).host.now := by
    intro a ha
    rw [hstore]
    exact hout a (haudit ▸ ha)
  have hafter : host'.disk.bytes? p = some (Text.Utf8.reencode bytes) := by
    rw [Session.bytes?_save hheld hout' (hstore ▸ hp) hsave, PolicyFile.text_ofText]
    rfl
  refine ⟨hafter, ?_, ?_⟩
  · rw [hafter, Option.some.injEq, Text.Utf8.reencode_eq_iff]
  · rintro front line back rfl hfront hline htext
    rw [hafter, Text.Utf8.reencode_lines hfront hline htext]

/-! ## bytes that are UTF-8, and bytes that are not -/

def markedBytes : List UInt8 := [0xEF, 0xBB, 0xBF, 0x23, 0x0D, 0x0A, 0x23]

theorem open_save_bytes_marked :
    let w := policySession none [("30-user.policy", .file markedBytes)]
    let after := w.run (.command () (.open "30-user" none) :: [.command () .files])
    (w.sessions ()).find? "30-user" = none ∧
    policyStore.path "30-user" = .ok ⟨["policy", "30-user.policy"]⟩ ∧
    w.host.disk.bytes? ⟨["policy", "30-user.policy"]⟩ = some markedBytes ∧
    ∃ s' host', (after.sessions ()).save after.host "30-user" = (.ok (), s', host') ∧
      host'.disk.bytes? ⟨["policy", "30-user.policy"]⟩ = some markedBytes := by
  intro w after
  have hpath : policyStore.path "30-user" = .ok ⟨["policy", "30-user.policy"]⟩ := by
    decide +kernel
  have hbytes : w.host.disk.bytes? ⟨["policy", "30-user.policy"]⟩ = some markedBytes := by
    decide +kernel
  have hleaves : ∀ c, .command () c ∈ [Event.command () Session.Command.files] →
      c.Leaves "30-user" := by
    intro c hc
    obtain rfl : c = .files := by simpa using hc
    exact ⟨nofun, nofun, nofun⟩
  have hsaved : ((after.sessions ()).save after.host "30-user").1 = .ok () := by decide +kernel
  rcases hsave : (after.sessions ()).save after.host "30-user" with ⟨result, s', host'⟩
  obtain rfl : result = .ok () := (congrArg Prod.fst hsave).symm.trans hsaved
  obtain ⟨-, hsame, -⟩ := open_save_bytes (w := w) rfl hpath hbytes none hleaves nofun hsave
  exact ⟨rfl, hpath, hbytes, s', host', rfl, hsame.mpr ⟨"\ufeff#\r\n#", by decide +kernel⟩⟩

def brokenBytes : List UInt8 := [0x23, 0xFF, 0x0A]

/-- **A byte that is not UTF-8 is lost**, though nobody has touched its line. -/
theorem open_save_loses_bytes :
    let w := (policySession none [("30-user.policy", .file brokenBytes)]).run
      [.command () (.open "30-user" none)]
    w.host.disk.bytes? ⟨["policy", "30-user.policy"]⟩ = some brokenBytes ∧
    ((w.sessions ()).save w.host "30-user").1 = .ok () ∧
    ((w.sessions ()).save w.host "30-user").2.2.disk.bytes? ⟨["policy", "30-user.policy"]⟩ =
      some [0x23, 0xEF, 0xBF, 0xBD, 0x0A] := by
  decide +kernel

end Workspace

end QubePolicy
