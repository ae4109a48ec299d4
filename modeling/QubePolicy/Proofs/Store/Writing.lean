import QubePolicy.Proofs.Disk.Listings
import QubePolicy.Proofs.Store.Replacing

/-!
# Which files the store touches

* `Store.directories`        where the files of a store lie;
* `Store.path_inj`           two names never share a place;
* `Store.Spares`             no policy file can come to lie at a place or above it;
* `Store.writeAt_eq_ok`      bytes written at a place are put there, once its directory is made;
* `Store.bytes?_writeAt`     no other file changes;
* `Store.writeAt_eq_error`   if they are not put there, only that directory may be new;
* `Store.look_writeAt`, `listing_writeAt`   nor does anything else at the place of a policy file, and
                             a directory of the store lists one more file at most.
-/

namespace QubePolicy

theorem Path.child_inj {p q : Path} {a b : String} (h : p.child a = q.child b) : p = q ∧ a = b := by
  obtain ⟨hnames, hlast⟩ := List.append_inj' (congrArg Path.names h) rfl
  exact ⟨congrArg Path.mk hnames, List.singleton_inj.mp hlast⟩

theorem Path.parent_child (p : Path) (name : String) : (p.child name).parent = p :=
  congrArg Path.mk List.dropLast_concat

/-! ## names -/

theorem Text.not_isFileName_of_mem {s : String} {c : Char} (hc : c ∈ s.toList)
    (hword : Text.isWordChar c = false) : Text.isFileName s = false := by
  rw [Text.isFileName, Text.isRunOf, List.all_eq_false.mpr ⟨c, hc, by simp [hword]⟩, Bool.and_false]

theorem PolicyName.not_isFileName_main (name : String) :
    Text.isFileName (name ++ ".policy") = false :=
  Text.not_isFileName_of_mem (c := '.') (by simp) (by decide)

theorem PolicyName.not_isInclude {name : String} (h : Text.isFileName name = true) :
    PolicyName.isInclude name = false := by
  unfold isInclude
  cases hafter : Text.after? "include/" name with
  | none => rfl
  | some rest =>
    rw [Text.after?_eq_some_iff.mp hafter,
      Text.not_isFileName_of_mem (c := '/') (by simp) (by decide)] at h
    cases h

namespace Store

variable {s : Store} {d d' : Disk} {p q : Path} {bytes : List UInt8} {name other : String}

/-! ## places -/

def directories (s : Store) : List Path := [s.directory, s.includeDirectory]

theorem directory_mem (s : Store) : s.directory ∈ s.directories := List.mem_cons_self

theorem includeDirectory_mem (s : Store) : s.includeDirectory ∈ s.directories :=
  List.mem_cons_of_mem _ List.mem_cons_self

theorem path_eq_ok (h : s.path name = .ok p) :
    (PolicyName.isInclude name = true ∧ ∃ base, name = "include/" ++ base ∧
      Text.isFileName base = true ∧ p = s.includeDirectory.child base) ∨
    (PolicyName.isInclude name = false ∧ Text.isFileName name = true ∧
      p = s.directory.child (name ++ ".policy")) := by
  unfold path PolicyName.isValid PolicyName.base at h
  unfold PolicyName.isInclude
  cases hafter : Text.after? "include/" name with
  | none =>
    rw [hafter] at h
    split at h
    · next hvalid =>
      cases h
      exact .inr ⟨rfl, hvalid, rfl⟩
    · cases h
  | some base =>
    rw [hafter] at h
    split at h
    · next hvalid =>
      cases h
      exact .inl ⟨rfl, base, Text.after?_eq_some_iff.mp hafter, hvalid, rfl⟩
    · cases h

theorem exists_child_of_path (h : s.path name = .ok p) :
    ∃ directory ∈ s.directories, ∃ file, p = directory.child file := by
  rcases path_eq_ok h with ⟨-, base, -, -, hp⟩ | ⟨-, -, hp⟩
  · exact ⟨s.includeDirectory, s.includeDirectory_mem, _, hp⟩
  · exact ⟨s.directory, s.directory_mem, _, hp⟩

/-- **Two names never share a place**, also where the two directories are one. -/
theorem path_inj (h : s.path name = .ok p) (hother : s.path other = .ok p) : name = other := by
  have hmixed {base main : String} (hbase : Text.isFileName base = true) :
      s.includeDirectory.child base ≠ s.directory.child (main ++ ".policy") := by
    intro hsame
    rw [(Path.child_inj hsame).2, PolicyName.not_isFileName_main] at hbase
    cases hbase
  rcases path_eq_ok h with ⟨-, base, rfl, hbase, rfl⟩ | ⟨-, -, rfl⟩
  · rcases path_eq_ok hother with ⟨-, base', rfl, -, hp⟩ | ⟨-, -, hp⟩
    · rw [(Path.child_inj hp).2]
    · exact absurd hp (hmixed hbase)
  · rcases path_eq_ok hother with ⟨-, base, -, hbase, hp⟩ | ⟨-, -, hp⟩
    · exact absurd hp.symm (hmixed hbase)
    · exact (String.append_left_inj _).mp (Path.child_inj hp).2

/-- No policy file can come to lie at the place or above it. -/
def Spares (s : Store) (q : Path) : Prop := ∀ name p, s.path name = .ok p → ¬p.Contains q

/-- No policy file can come to lie at one of the two directories or above it. -/
def SparesDirectories (s : Store) : Prop := ∀ directory ∈ s.directories, s.Spares directory

theorem SparesDirectories.parent (hs : s.SparesDirectories) (hp : s.path name = .ok p) :
    s.Spares p.parent := by
  obtain ⟨directory, hdirectory, file, rfl⟩ := exists_child_of_path hp
  rw [Path.parent_child]
  exact hs directory hdirectory

/-! ## writing -/

theorem writeAt_eq_ok (h : writeAt d p bytes = (.ok (), d')) : ∃ made,
    d.makeDirectories p.parent = .ok made ∧ made.replace p bytes = (.ok (), d') := by
  unfold writeAt at h
  split at h
  · cases h
  · next made hmade => exact ⟨made, hmade, h⟩

/-- Where the bytes cannot be written, no more is done than making the directory of the place. -/
theorem writeAt_eq_error {e : SystemFault} (h : writeAt d p bytes = (.error e, d')) :
    d' = d ∨ d.makeDirectories p.parent = .ok d' := by
  unfold writeAt at h
  split at h
  · cases h
    exact .inl rfl
  · next made hmade =>
    rw [Disk.replace_eq_error h]
    exact .inr hmade

theorem bytes?_writeAt (h : writeAt d p bytes = (.ok (), d')) (q : Path) :
    d'.bytes? q = if q = p then some bytes else d.bytes? q := by
  obtain ⟨made, hmade, hreplace⟩ := writeAt_eq_ok h
  rw [← Disk.bytes?_makeDirectories hmade q, Disk.bytes?, Disk.look_replace hreplace]
  split <;> rfl

/-- Nothing changes at the places of other policy files. -/
theorem look_writeAt (hs : s.SparesDirectories) (hp : s.path name = .ok p)
    (hq : s.path other = .ok q) (h : writeAt d p bytes = (.ok (), d')) :
    d'.look q = if q = p then some (some bytes) else d.look q := by
  obtain ⟨made, hmade, hreplace⟩ := writeAt_eq_ok h
  rw [Disk.look_replace hreplace, Disk.look_makeDirectories hmade (hs.parent hp other q hq)]

theorem listing_writeAt (hs : s.SparesDirectories) (hp : s.path name = .ok p) {directory : Path}
    (hdirectory : directory ∈ s.directories) (h : writeAt d p bytes = (.ok (), d')) :
    d'.listing directory = d.listing directory ∨
      ∃ file, p = directory.child file ∧ d.look p = none ∧
        d'.listing directory = (d.listing directory).map (· ++ [file]) := by
  obtain ⟨made, hmade, hreplace⟩ := writeAt_eq_ok h
  rw [← Disk.listing_makeDirectories hmade directory,
    ← Disk.look_makeDirectories hmade (hs.parent hp name p hp)]
  exact Disk.listing_replace hreplace (hs directory hdirectory name p hp)

end Store

end QubePolicy
