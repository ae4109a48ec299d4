import QubePolicy.Proofs.Disk.Files
import Mathlib.Data.List.Infix

/-!
# What keeps a file from being written

A file is written at a place in a directory that is made first, and only two things are in its way.

* `FileTree.makeDirectories_cases`   directories are made unless there is a file at one of them or
                              above it;
* `FileTree.exists_put`       in a directory anything can be put under a new name;
* `Disk.obstacle?`            a file above the place, or a directory in it;
* `Disk.makeDirectories_cases`, `Disk.replace_fst`   when directories are made, and when a file in
                              one is replaced;
* `Disk.look_of_read`         what is read at a place tells what is there;
* `Disk.obstacle?_congr`      what is in the way is told by the place and the files above it.
-/

namespace QubePolicy

/-! ## trees -/

namespace FileTree

variable {tree changed root : FileTree} {name : String} {names place : List String}
  {entries es : List (String × FileTree)}

theorem bytes?_getD (entries : List (String × FileTree)) (name : String) (place : List String) :
    ((entries.lookup name).getD (directory [])).bytes? place =
      (directory entries).bytes? (name :: place) := by
  unfold bytes?
  rw [look_directory_cons]
  cases entries.lookup name with
  | some old => rfl
  | none => cases place <;> rfl

/-- **Directories are made unless a file is in the way**, at the place or above it. -/
theorem makeDirectories_cases (names : List String) (tree : FileTree) :
    ((∃ changed, makeDirectories names tree = .ok changed) ∧
      ∀ place, place <+: names → tree.bytes? place = none) ∨
    (makeDirectories names tree = .error .notDirectory ∧
      ∃ place, place <+: names ∧ (tree.bytes? place).isSome = true) := by
  induction names generalizing tree with
  | nil =>
    cases tree with
    | file bytes => exact .inr ⟨rfl, [], List.prefix_refl _, rfl⟩
    | directory entries =>
      refine .inl ⟨⟨_, rfl⟩, fun place hplace => ?_⟩
      rw [List.prefix_nil.mp hplace]
      rfl
  | cons name names ih =>
    cases tree with
    | file bytes => exact .inr ⟨rfl, [], List.nil_prefix, rfl⟩
    | directory entries =>
      rw [makeDirectories]
      rcases ih ((entries.lookup name).getD (directory [])) with
        ⟨⟨t, ht⟩, hnone⟩ | ⟨herror, place, hplace, hsome⟩
      · refine .inl ⟨⟨_, by rw [ht]; rfl⟩, fun place hplace => ?_⟩
        cases place with
        | nil => rfl
        | cons n rest =>
          obtain ⟨rfl, hrest⟩ := List.cons_prefix_cons.mp hplace
          rw [← bytes?_getD]
          exact hnone rest hrest
      · refine .inr ⟨by rw [herror]; rfl, name :: place,
          List.cons_prefix_cons.mpr ⟨rfl, hplace⟩, ?_⟩
        rwa [← bytes?_getD]

theorem look_makeDirectories_self (h : makeDirectories names tree = .ok changed) :
    changed.look names = some none := by
  induction names generalizing tree changed with
  | nil =>
    rw [look, find]
    exact congrArg some (contents_of_makeDirectories h).2
  | cons name names ih =>
    cases tree with
    | file bytes => cases h
    | directory entries =>
      obtain ⟨t, ht, rfl⟩ := makeDirectories_directory_eq_ok h
      rw [look_assign, if_pos rfl]
      exact ih ht

theorem find_ne_isDirectory : tree.find names ≠ .error .isDirectory := by
  induction names generalizing tree with
  | nil =>
    intro h
    cases h
  | cons name names ih =>
    cases tree with
    | file bytes =>
      intro h
      cases h
    | directory entries =>
      rw [find]
      split
      · exact ih
      · intro h
        cases h

theorem exists_put (h : root.find names = .ok (directory es)) (new : FileTree) (name : String) :
    ∃ changed, put new (names ++ [name]) root = .ok changed := by
  induction names generalizing root with
  | nil =>
    cases h
    cases hlookup : es.lookup name with
    | some old =>
      exact ⟨_, put_directory_eq_ok_iff.mpr ⟨new, rfl, .inl ⟨old, hlookup, rfl⟩⟩⟩
    | none => exact ⟨_, put_directory_eq_ok_iff.mpr ⟨new, rfl, .inr ⟨hlookup, rfl, rfl⟩⟩⟩
  | cons n names ih =>
    cases root with
    | file bytes => cases h
    | directory entries =>
      obtain ⟨old, hlookup, hfind⟩ := find_directory_cons_eq_ok h
      obtain ⟨t, ht⟩ := ih hfind
      exact ⟨_, put_directory_eq_ok_iff.mpr ⟨t, rfl, .inl ⟨old, hlookup, ht⟩⟩⟩

end FileTree

/-! ## places -/

namespace Path

variable {p : Path} {a b : String}

theorem eq_child_parent (hp : p.names ≠ []) : p = p.parent.child p.name :=
  congrArg Path.mk (names_eq_parent hp)

theorem ne_child (p : Path) (name : String) : p ≠ p.child name := fun h => by
  simpa [child] using congrArg (fun q => q.names.length) h

theorem child_eq_of_contains (h : (p.child a).Contains (p.child b)) : p.child a = p.child b :=
  congrArg Path.mk (List.IsPrefix.eq_of_length h (by simp))

end Path

/-! ## disks -/

namespace Disk

variable {d d' : Disk} {p q : Path} {bytes : List UInt8}

theorem look_of_find_eq_error {e : SystemFault} (h : d.find p = .error e) : d.look p = none := by
  unfold look FileTree.look
  rw [show d.root.find p.names = .error e from h]
  rfl

/-- What keeps a file from being written at a place: a file above it, or a directory in it. -/
def obstacle? (d : Disk) (p : Path) : Option SystemFault :=
  if p.parent.names.inits.any fun names => (d.bytes? ⟨names⟩).isSome then some .notDirectory
  else if d.look p = some none then some .isDirectory
  else none

theorem any_inits_eq_true_iff {above : Path} :
    (above.names.inits.any fun names => (d.bytes? ⟨names⟩).isSome) = true ↔
      ∃ place, place <+: above.names ∧ (d.bytes? ⟨place⟩).isSome = true := by
  simp only [List.any_eq_true, List.mem_inits]

/-- **Directories are made unless there is a file at the place or above it.** -/
theorem makeDirectories_cases (d : Disk) (above : Path) :
    ((∃ made, d.makeDirectories above = .ok made) ∧
      (above.names.inits.any fun names => (d.bytes? ⟨names⟩).isSome) = false) ∨
    (d.makeDirectories above = .error .notDirectory ∧
      (above.names.inits.any fun names => (d.bytes? ⟨names⟩).isSome) = true) := by
  unfold makeDirectories
  rw [← Bool.not_eq_true, any_inits_eq_true_iff]
  rcases FileTree.makeDirectories_cases above.names d.root with
    ⟨⟨changed, hchanged⟩, hnone⟩ | ⟨herror, place, hplace, hsome⟩
  · refine .inl ⟨⟨⟨changed⟩, by rw [hchanged]; rfl⟩, ?_⟩
    rintro ⟨place, hplace, hsome⟩
    rw [show d.bytes? ⟨place⟩ = none from hnone place hplace] at hsome
    cases hsome
  · exact .inr ⟨by rw [herror]; rfl, place, hplace, hsome⟩

theorem look_makeDirectories_self (h : d.makeDirectories p = .ok d') : d'.look p = some none := by
  obtain ⟨root, hroot, rfl⟩ := Except.map_eq_ok_iff.mp h
  exact FileTree.look_makeDirectories_self hroot

theorem find_child {es : List (String × FileTree)} (h : d.find p = .ok (.directory es))
    (name : String) : d.find (p.child name) =
      match es.lookup name with
      | some tree => .ok tree
      | none => .error .missing := by
  unfold find at h
  rw [find, Path.child, FileTree.find_append, h]
  show FileTree.find [name] (.directory es) = _
  rw [FileTree.find]
  cases es.lookup name <;> rfl

theorem exists_write {es : List (String × FileTree)} (h : d.find p = .ok (.directory es))
    {name : String} (hname : d.look (p.child name) ≠ some none) (bytes : List UInt8) :
    ∃ d', d.write (p.child name) bytes = .ok d' := by
  obtain ⟨root, hroot⟩ := FileTree.exists_put h (.file bytes) name
  refine ⟨⟨root⟩, ?_⟩
  unfold write
  split
  · next entries hfind => exact absurd (look_of_find hfind) hname
  · rw [show (p.child name).names = p.names ++ [name] from rfl, hroot]
    rfl

theorem mayReplace_file {es : List (String × FileTree)} (h : d.find p = .ok (.directory es))
    (name : String) (bytes : List UInt8) : d.mayReplace (.file bytes) (p.child name) =
      if d.look (p.child name) = some none then .error .isDirectory else .ok () := by
  have hchild := find_child h name
  unfold mayReplace
  cases hlookup : es.lookup name with
  | none =>
    rw [hlookup] at hchild
    rw [hchild, look_of_find_eq_error hchild]
    rfl
  | some tree =>
    rw [hlookup] at hchild
    rw [hchild, look_of_find hchild]
    cases tree with
    | file b => rfl
    | directory entries => cases entries <;> rfl

/-- A file is moved to another place in a directory unless a directory is there. -/
theorem rename_file_cases {source : Path} (hsource : d.look source = some (some bytes))
    {es : List (String × FileTree)} (h : d.find p = .ok (.directory es)) {name : String}
    (hbelow : ¬source.Contains (p.child name)) :
    (d.look (p.child name) = some none ∧ d.rename source (p.child name) = .error .isDirectory) ∨
    (d.look (p.child name) ≠ some none ∧ ∃ moved, d.rename source (p.child name) = .ok moved) := by
  have hne : source ≠ p.child name := fun hsame => hbelow (hsame ▸ List.prefix_refl _)
  have hisSome : ¬(source.below? (p.child name)).isSome = true := fun hsome =>
    hbelow (Path.isSome_below?_iff.mp hsome)
  have hmay := mayReplace_file h name bytes
  have hrename : d.rename source (p.child name) = (do
      d.mayReplace (.file bytes) (p.child name)
      let root ← FileTree.put (.file bytes) (p.child name).names d.root
      return ⟨root.erase source.names⟩) := by
    unfold rename
    rw [find_eq_file hsource]
    show (if source = p.child name then _ else _) = _
    rw [if_neg hne, if_neg hisSome]
  rw [hrename, hmay]
  by_cases hlook : d.look (p.child name) = some none
  · rw [if_pos hlook]
    exact .inl ⟨hlook, rfl⟩
  · rw [if_neg hlook]
    obtain ⟨root, hroot⟩ := FileTree.exists_put h (.file bytes) name
    refine .inr ⟨hlook, ⟨root.erase source.names⟩, ?_⟩
    rw [show (p.child name).names = p.names ++ [name] from rfl, hroot]
    rfl

/-- **A file in a directory is replaced unless a directory is in its place.** -/
theorem replace_fst (hparent : d.look p.parent = some none) (hp : p.names ≠ [])
    (bytes : List UInt8) : (d.replace p bytes).1 =
      if d.look p = some none then .error .isDirectory else .ok () := by
  obtain ⟨es, hes⟩ := exists_find_of_directory hparent
  have hentries : d.entries p.parent = .ok es := by
    unfold entries
    rw [hes]
    rfl
  have hfresh : d.look (p.parent.child (freshName p.name es)) = none := by
    have hchild := find_child hes (freshName p.name es)
    rw [lookup_freshName] at hchild
    exact look_of_find_eq_error hchild
  obtain ⟨written, hwritten⟩ := exists_write hes (by rw [hfresh]; exact nofun) bytes
  have hlook := look_write hwritten
  have hne := ne_child_freshName p es
  have hplace : p.parent.child p.name = p := (Path.eq_child_parent hp).symm
  have hdirectory : written.look p.parent = some none := by
    rw [hlook, if_neg (Path.ne_child p.parent _), hparent]
  obtain ⟨es', hes'⟩ := exists_find_of_directory hdirectory
  have hbelow : ¬(p.parent.child (freshName p.name es)).Contains (p.parent.child p.name) :=
    fun hcontains => hne (hplace.symm.trans (Path.child_eq_of_contains hcontains).symm)
  have hcases := rename_file_cases ((hlook _).trans (if_pos rfl)) hes' hbelow
  rw [hplace, hlook, if_neg hne] at hcases
  unfold replace
  simp only [hentries, hwritten]
  rcases hcases with ⟨hthere, hrename⟩ | ⟨hthere, moved, hrename⟩
  · rw [hrename, if_pos hthere]
  · rw [hrename, if_neg hthere]

/-! ## what is read at a place -/

theorem look_eq_directory_iff : d.look p = some none ↔ d.read p = .error .isDirectory := by
  constructor
  · intro hlook
    obtain ⟨es, hes⟩ := exists_find_of_directory hlook
    unfold read
    rw [hes]
    rfl
  · intro hread
    unfold read at hread
    cases hfind : d.find p with
    | error e =>
      rw [hfind] at hread
      cases hread
      exact absurd hfind FileTree.find_ne_isDirectory
    | ok tree =>
      rw [hfind] at hread
      cases tree with
      | file bytes => cases hread
      | directory es => exact look_of_find hfind

theorem look_of_read (h : d'.read p = d.read p) : d'.look p = d.look p := by
  have hbytes : d'.bytes? p = d.bytes? p := by rw [← toOption_read, ← toOption_read, h]
  have hdirectory : d'.look p = some none ↔ d.look p = some none := by
    rw [look_eq_directory_iff, look_eq_directory_iff, h]
  unfold bytes? at hbytes
  rcases hd : d.look p with _ | _ | bytes <;> rcases hd' : d'.look p with _ | _ | bytes' <;>
    rw [hd, hd'] at hbytes hdirectory
  · exact absurd (hdirectory.mp rfl) nofun
  · cases hbytes
  · exact absurd (hdirectory.mpr rfl) nofun
  · cases hbytes
  · cases hbytes
  · cases hbytes
  · exact congrArg some hbytes

/-- **What keeps a file from being written** is told by what is there and by where the files above
it are. -/
theorem obstacle?_congr (hp : d'.look p = d.look p)
    (habove : ∀ q : Path, q.Contains p.parent → (d'.bytes? q).isSome = (d.bytes? q).isSome) :
    d'.obstacle? p = d.obstacle? p := by
  have hinits : (p.parent.names.inits.any fun names => (d'.bytes? ⟨names⟩).isSome) =
      p.parent.names.inits.any fun names => (d.bytes? ⟨names⟩).isSome := by
    rw [Bool.eq_iff_iff, any_inits_eq_true_iff, any_inits_eq_true_iff]
    refine exists_congr fun place => and_congr_right fun hplace => ?_
    rw [habove ⟨place⟩ hplace]
  unfold obstacle?
  rw [hinits, hp]

end Disk

end QubePolicy
