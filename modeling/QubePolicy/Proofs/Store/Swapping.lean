import QubePolicy.Proofs.Disk.Obstacles
import QubePolicy.Proofs.Store.Writing
import QubePolicy.Proofs.Text.Utf8

/-!
# Comparing and swapping

A file is replaced if it is as it is expected to be and nothing keeps it from being written; else
every file stays what it was.

* `Store.writeAt_fst`, `writeAt_cases`   bytes are written at a place unless something is in the way;
* `Store.Refuses`             why a file is not replaced: it is not as expected, or not writable;
* `Store.check_refuses`       what the check finds is one of these reasons;
* `Store.Swapped`, `Store.Untouched`   what a replaced file, and one that is not, leave behind;
* `Store.replace_compares_and_swaps`   every attempt comes to one of the two.
-/

namespace QubePolicy

namespace Store

variable {s : Store} {d d' : Disk} {p : Path} {name text : String} {bytes : List UInt8}
  {expected : Version}

theorem names_ne_nil_of_path (h : s.path name = .ok p) : p.names ≠ [] := by
  obtain ⟨directory, -, file, rfl⟩ := exists_child_of_path h
  exact List.append_ne_nil_of_right_ne_nil _ (List.cons_ne_nil _ _)

theorem exists_path (h : PolicyName.isValid name = true) (s : Store) :
    ∃ p, s.path name = .ok p := by
  rw [path, if_pos h]
  exact ⟨_, rfl⟩

/-! ## writing -/

/-- **Bytes are written at a place unless something is in the way.** -/
theorem writeAt_fst (hp : p.names ≠ []) (d : Disk) (bytes : List UInt8) :
    (writeAt d p bytes).1 = match d.obstacle? p with
      | some cause => .error cause
      | none => .ok () := by
  unfold writeAt Disk.obstacle?
  rcases d.makeDirectories_cases p.parent with ⟨⟨made, hmade⟩, hfree⟩ | ⟨herror, hfile⟩
  · have hlook : made.look p = d.look p := Disk.look_makeDirectories hmade fun hcontains => by
      have hlength := List.IsPrefix.length_le hcontains
      rw [Path.names_eq_parent hp, List.length_append, List.length_singleton] at hlength
      omega
    rw [hmade, hfree, if_neg Bool.false_ne_true]
    show (made.replace p bytes).1 = _
    rw [Disk.replace_fst (Disk.look_makeDirectories_self hmade) hp, hlook]
    split <;> rfl
  · rw [herror, hfile, if_pos rfl]

theorem writeAt_cases (hp : p.names ≠ []) (d : Disk) (bytes : List UInt8) :
    (d.obstacle? p = none ∧ ∃ written, writeAt d p bytes = (.ok (), written)) ∨
      ∃ cause left, d.obstacle? p = some cause ∧ writeAt d p bytes = (.error cause, left) := by
  have hfst := writeAt_fst hp d bytes
  rcases hwrite : writeAt d p bytes with ⟨outcome, after⟩
  rw [hwrite] at hfst
  cases hobstacle : d.obstacle? p with
  | none =>
    rw [hobstacle] at hfst
    exact .inl ⟨rfl, after, congrArg (·, after) hfst⟩
  | some cause =>
    rw [hobstacle] at hfst
    exact .inr ⟨cause, after, rfl, congrArg (·, after) hfst⟩

/-- No file has changed; what has changed is the directories above the file. -/
structure Untouched (p : Path) (d d' : Disk) : Prop where
  files : ∀ q, d'.bytes? q = d.bytes? q
  places : ∀ q : Path, ¬q.Contains p.parent → d'.look q = d.look q

theorem untouched_writeAt {e : SystemFault} (h : writeAt d p bytes = (.error e, d')) :
    Untouched p d d' := by
  rcases writeAt_eq_error h with rfl | hmade
  · exact ⟨fun _ => rfl, fun _ _ => rfl⟩
  · exact ⟨Disk.bytes?_makeDirectories hmade, fun _ => Disk.look_makeDirectories hmade⟩

theorem look_writeAt_of_not_contains (h : writeAt d p bytes = (.ok (), d')) {q : Path}
    (hq : ¬q.Contains p) : d'.look q = d.look q := by
  obtain ⟨made, hmade, hreplace⟩ := writeAt_eq_ok h
  have hne : q ≠ p := fun hsame => hq (hsame ▸ List.prefix_refl _)
  rw [Disk.look_replace hreplace, if_neg hne]
  exact Disk.look_makeDirectories hmade fun hcontains =>
    hq (hcontains.trans (List.dropLast_prefix _))

/-! ## refusals -/

/-- Why the file at a place is not replaced: it is there though it should be new, it has another
text, it is a directory and has none, or it is as expected but cannot be written. -/
inductive Refuses (d : Disk) (p : Path) : Version → StorageFault → Prop
  | there : d.exists? p = true → Refuses d p .new .alreadyThere
  | modified (digest : String) : d.look p ≠ some none → ¬Version.Fits d p (.content digest) →
      Refuses d p (.content digest) .modified
  | directory (digest : String) : d.look p = some none →
      Refuses d p (.content digest) (.unreadable .isDirectory)
  | unwritable (expected : Version) (cause : SystemFault) : expected.Fits d p →
      d.obstacle? p = some cause → Refuses d p expected (.unwritable cause)

variable {fault : StorageFault}

theorem Refuses.not_free (h : Refuses d p expected fault) :
    ¬(expected.Fits d p ∧ d.obstacle? p = none) := by
  rintro ⟨hfits, hfree⟩
  cases h with
  | there hthere =>
    rw [show d.exists? p = false from hfits] at hthere
    cases hthere
  | modified digest hlook hunfit => exact hunfit hfits
  | directory digest hlook =>
    obtain ⟨text, htext, -⟩ := hfits
    obtain ⟨bytes, hbytes, -⟩ := Disk.readText_eq_ok_iff.mp htext
    rw [Disk.bytes?, hlook] at hbytes
    cases hbytes
  | unwritable expected cause _ hobstacle =>
    rw [hfree] at hobstacle
    cases hobstacle

theorem Refuses.code? (h : Refuses d p expected fault) (name : String) :
    (Fault.storage name fault).code? ∈
      [some "already-exists", some "conflict", some "io-error"] := by
  cases h <;> simp [Fault.code?]

theorem look_of_get {e : Fault} (hp : s.path name = .ok p) (hthere : d.exists? p = true)
    (h : s.get d name = .error e) :
    d.look p = some none ∧ e = .storage name (.unreadable .isDirectory) := by
  rw [Disk.exists?_eq] at hthere
  obtain ⟨content, hlook⟩ := Option.isSome_iff_exists.mp hthere
  cases content with
  | some bytes =>
    have hbytes : d.bytes? p = some bytes := by
      rw [Disk.bytes?, hlook]
      rfl
    have htext := Disk.readText_of_bytes? hbytes
    rw [get_eq_ok_iff.mpr ⟨textOf?_eq_some_iff.mpr ⟨p, hp, htext⟩, rfl⟩] at h
    cases h
  | none =>
    have hread : d.readText p = .error .isDirectory := by
      rw [Disk.readText, Disk.look_eq_directory_iff.mp hlook]
      rfl
    simp only [get, hp, bind, Except.bind, hread] at h
    exact ⟨hlook, (Except.error.inj h).symm⟩

/-- **What the check finds is a reason not to replace the file.** -/
theorem check_refuses {e : Fault} (hp : s.path name = .ok p)
    (h : s.check d name expected = .error e) :
    ∃ fault, e = .storage name fault ∧ Refuses d p expected fault := by
  have hunfit : ¬expected.Fits d p := fun hfits => by
    rw [check_eq_ok_iff (u := ()).mpr ⟨p, hp, hfits⟩] at h
    cases h
  have hexists : s.exists? d name = .ok (d.exists? p) := exists?_eq_ok_iff.mpr ⟨p, hp, rfl⟩
  simp only [check, hexists, bind, Except.bind] at h
  cases expected with
  | any => exact absurd trivial hunfit
  | new =>
    cases hthere : d.exists? p with
    | false => exact absurd hthere hunfit
    | true =>
      rw [hthere] at h
      cases h
      exact ⟨.alreadyThere, rfl, .there hthere⟩
  | content digest =>
    cases hthere : d.exists? p with
    | false =>
      rw [hthere] at h
      cases h
      rw [Disk.exists?_eq] at hthere
      refine ⟨.modified, rfl, .modified digest (fun hlook => ?_) hunfit⟩
      rw [hlook] at hthere
      cases hthere
    | true =>
      rw [hthere, if_pos rfl] at h
      cases hget : s.get d name with
      | error f =>
        rw [hget] at h
        cases h
        obtain ⟨hlook, rfl⟩ := look_of_get hp hthere hget
        exact ⟨_, rfl, .directory digest hlook⟩
      | ok got =>
        obtain ⟨stored, v⟩ := got
        obtain ⟨htext, rfl⟩ := get_eq_ok_iff.mp hget
        obtain ⟨q, hq, htext⟩ := textOf?_eq_some_iff.mp htext
        obtain rfl : p = q := Except.ok.inj (hp.symm.trans hq)
        have hother : Version.ofText stored ≠ .content digest := fun hsame =>
          hunfit ⟨stored, htext, hsame⟩
        rw [hget] at h
        obtain rfl : .storage name .modified = e := Except.error.inj ((if_neg hother).symm.trans h)
        refine ⟨.modified, rfl, .modified digest (fun hlook => ?_) hunfit⟩
        obtain ⟨bytes, hbytes, -⟩ := Disk.readText_eq_ok_iff.mp htext
        rw [Disk.bytes?, hlook] at hbytes
        cases hbytes

/-! ## outcomes -/

/-- The file has the text, and no other file has changed; what else has changed is above it. -/
structure Swapped (s : Store) (name text : String) (p : Path) (d d' : Disk) : Prop where
  stored : s.get d' name = .ok (text, .ofText text)
  others : ∀ q, q ≠ p → d'.bytes? q = d.bytes? q
  places : ∀ q : Path, ¬q.Contains p → d'.look q = d.look q

theorem swapped_writeAt (hp : s.path name = .ok p)
    (h : writeAt d p (Text.Utf8.encode text) = (.ok (), d')) : s.Swapped name text p d d' where
  stored := by
    have hbytes := (bytes?_writeAt h p).trans (if_pos rfl)
    have htext := Disk.readText_of_bytes? hbytes
    rw [Text.Utf8.decode_encode] at htext
    exact get_eq_ok_iff.mpr ⟨textOf?_eq_some_iff.mpr ⟨p, hp, htext⟩, rfl⟩
  others q hq := (bytes?_writeAt h q).trans (if_neg hq)
  places _ := look_writeAt_of_not_contains h

theorem replace_of_check_error {e : Fault} (h : s.check d name expected = .error e)
    (text : String) : s.replace d name text expected = (.error e, d) := by
  unfold replace
  simp only [h]

theorem replace_of_written (hp : s.path name = .ok p) (h : s.check d name expected = .ok ())
    (hwrite : writeAt d p (Text.Utf8.encode text) = (.ok (), d')) :
    s.replace d name text expected = (.ok (.ofText text), d') := by
  unfold replace
  simp only [h, hp, hwrite]

theorem replace_of_unwritten {cause : SystemFault} (hp : s.path name = .ok p)
    (h : s.check d name expected = .ok ())
    (hwrite : writeAt d p (Text.Utf8.encode text) = (.error cause, d')) :
    s.replace d name text expected = (.error (.storage name (.unwritable cause)), d') := by
  unfold replace
  simp only [h, hp, hwrite]

theorem replace_fst (hp : s.path name = .ok p) (d : Disk) (text : String) (expected : Version) :
    (s.replace d name text expected).1 = (s.check d name expected).bind fun _ =>
      match d.obstacle? p with
      | some cause => .error (.storage name (.unwritable cause))
      | none => .ok (.ofText text) := by
  cases hcheck : s.check d name expected with
  | error e =>
    rw [replace_of_check_error hcheck]
    rfl
  | ok u =>
    rcases writeAt_cases (names_ne_nil_of_path hp) d (Text.Utf8.encode text) with
      ⟨hfree, written, hwrite⟩ | ⟨cause, left, hobstacle, hwrite⟩
    · rw [replace_of_written hp hcheck hwrite, hfree]
      rfl
    · rw [replace_of_unwritten hp hcheck hwrite, hobstacle]
      rfl

/-- **A stored file is compared and swapped.** It is replaced if and only if it is as expected and
nothing is in the way. Then it has the new text under the version that is told, and every other file
is as it was; otherwise every file is, and what is told is the reason. Either way nothing is left
behind but directories above the file. -/
theorem replace_compares_and_swaps (hvalid : PolicyName.isValid name = true) (s : Store) (d : Disk)
    (text : String) (expected : Version) : ∃ p, s.path name = .ok p ∧
      ((expected.Fits d p ∧ d.obstacle? p = none ∧ ∃ written,
          s.replace d name text expected = (.ok (.ofText text), written) ∧
          s.Swapped name text p d written) ∨
        (¬(expected.Fits d p ∧ d.obstacle? p = none) ∧ ∃ fault left,
          s.replace d name text expected = (.error (.storage name fault), left) ∧
          Refuses d p expected fault ∧
          (Fault.storage name fault).code? ∈
            [some "already-exists", some "conflict", some "io-error"] ∧
          Untouched p d left)) := by
  obtain ⟨p, hp⟩ := exists_path hvalid s
  refine ⟨p, hp, ?_⟩
  cases hcheck : s.check d name expected with
  | error e =>
    obtain ⟨fault, rfl, hrefuses⟩ := check_refuses hp hcheck
    refine .inr ⟨hrefuses.not_free, fault, d, ?_, hrefuses, hrefuses.code? name, ?_⟩
    · exact replace_of_check_error hcheck text
    · exact ⟨fun _ => rfl, fun _ _ => rfl⟩
  | ok u =>
    obtain ⟨q, hq, hfits⟩ := check_eq_ok_iff.mp hcheck
    obtain rfl : p = q := Except.ok.inj (hp.symm.trans hq)
    rcases writeAt_cases (names_ne_nil_of_path hp) d (Text.Utf8.encode text) with
      ⟨hfree, written, hwrite⟩ | ⟨cause, left, hobstacle, hwrite⟩
    · exact .inl ⟨hfits, hfree, written, replace_of_written hp hcheck hwrite,
        swapped_writeAt hp hwrite⟩
    · have hrefuses := Refuses.unwritable expected cause hfits hobstacle
      exact .inr ⟨hrefuses.not_free, .unwritable cause, left, replace_of_unwritten hp hcheck hwrite,
        hrefuses, hrefuses.code? name, untouched_writeAt hwrite⟩

def nested : Store := ⟨⟨["etc", "policy"]⟩, ⟨["etc", "policy", "include"]⟩⟩

theorem replace_compares_and_swaps_blank : PolicyName.isValid "include/web" = true ∧
    ∃ written, nested.replace .blank "include/web" "# web" .new = (.ok (.ofText "# web"), written) ∧
      nested.get written "include/web" = .ok ("# web", .ofText "# web") ∧
      ∀ file, file ≠ "web" → written.look (nested.includeDirectory.child file) = none := by
  have hvalid : PolicyName.isValid "include/web" = true := by decide
  obtain ⟨p, hp, ⟨-, -, written, hreplace, hswapped⟩ | ⟨hnot, -⟩⟩ :=
    replace_compares_and_swaps hvalid nested .blank "# web" .new
  · obtain rfl : nested.includeDirectory.child "web" = p := Except.ok.inj hp
    refine ⟨hvalid, written, hreplace, hswapped.stored, fun file hfile => ?_⟩
    rw [hswapped.places _ fun hcontains =>
      hfile (Path.child_inj (Path.child_eq_of_contains hcontains)).2]
    rfl
  · obtain rfl : nested.includeDirectory.child "web" = p := Except.ok.inj hp
    exact absurd ⟨rfl, by decide⟩ hnot

end Store

end QubePolicy
