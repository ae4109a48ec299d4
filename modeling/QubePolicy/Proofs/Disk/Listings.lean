import QubePolicy.Proofs.Disk.Files

/-!
# Which files a directory lists

* `FileTree.listing`         the names of the files in the directory at the end of some names;
* `listing_makeDirectories`  making directories changes no listing;
* `listing_put_file`         a file that is put in place is listed last in its directory if it is new,
                             and changes no other listing;
* `Disk.listing_replace`     so does replacing a file.
-/

namespace QubePolicy

namespace FileTree

variable {tree new old other changed : FileTree} {name : String} {names place : List String}
  {entries : List (String × FileTree)} {bytes : List UInt8}

/-! ## names of files -/

def fileNames (entries : List (String × FileTree)) : List String :=
  entries.filterMap fun (name, tree) =>
    match tree with
    | .file _ => some name
    | .directory _ => none

theorem fileNames_cons (m : String) (t : FileTree) (entries : List (String × FileTree)) :
    fileNames ((m, t) :: entries) =
      if t.contents.isSome then m :: fileNames entries else fileNames entries := by
  cases t <;> rfl

theorem fileNames_assign_of_lookup (h : entries.lookup name = some old)
    (hkind : new.contents.isSome = old.contents.isSome) :
    fileNames (assign name new entries) = fileNames entries := by
  induction entries with
  | nil => cases h
  | cons e entries ih =>
    obtain ⟨m, t⟩ := e
    rw [lookup_cons] at h
    rw [assign_cons]
    by_cases hm : name = m
    · rw [if_pos hm] at h
      cases h
      rw [if_pos hm.symm, fileNames_cons, fileNames_cons, hkind]
    · rw [if_neg hm] at h
      rw [if_neg (Ne.symm hm), fileNames_cons, fileNames_cons, ih h]

theorem fileNames_assign_of_none (h : entries.lookup name = none) (new : FileTree) :
    fileNames (assign name new entries) = fileNames entries ++ fileNames [(name, new)] := by
  induction entries with
  | nil => rfl
  | cons e entries ih =>
    obtain ⟨m, t⟩ := e
    rw [lookup_cons] at h
    by_cases hm : name = m
    · rw [if_pos hm] at h
      cases h
    · rw [if_neg hm] at h
      rw [assign_cons, if_neg (Ne.symm hm), fileNames_cons, fileNames_cons, ih h]
      split <;> rfl

/-! ## listings -/

/-- The names of the files in the directory at the end of the names: none where there is nothing;
a file has no listing. -/
def listing (tree : FileTree) (place : List String) : Option (List String) :=
  match tree.find place with
  | .error _ => some []
  | .ok (.file _) => none
  | .ok (.directory entries) => some (fileNames entries)

@[simp] theorem listing_directory_nil (entries : List (String × FileTree)) :
    (directory entries).listing [] = some (fileNames entries) := rfl

theorem listing_directory_cons : (directory entries).listing (name :: place) =
    match entries.lookup name with
    | some tree => tree.listing place
    | none => some [] := by
  rw [listing, find]
  cases entries.lookup name <;> rfl

theorem listing_of_lookup (h : entries.lookup name = some tree) :
    (directory entries).listing (name :: place) = tree.listing place := by
  rw [listing_directory_cons, h]

theorem listing_assign (n : String) (rest : List String) :
    (directory (assign name tree entries)).listing (n :: rest) =
      if n = name then tree.listing rest else (directory entries).listing (n :: rest) := by
  rw [listing, find_assign]
  by_cases hn : n = name
  · rw [if_pos hn, if_pos hn, listing]
  · rw [if_neg hn, if_neg hn, listing]

theorem listing_congr (h : changed.find place = tree.find place) :
    changed.listing place = tree.listing place := by
  rw [listing, h, listing]

theorem listing_getD (entries : List (String × FileTree)) (name : String) (place : List String) :
    ((entries.lookup name).getD (directory [])).listing place =
      (directory entries).listing (name :: place) := by
  rw [listing_directory_cons]
  cases entries.lookup name with
  | some old => rfl
  | none => cases place <;> rfl

/-- **Making directories changes no listing.** -/
theorem listing_makeDirectories (h : makeDirectories names tree = .ok changed)
    (place : List String) : changed.listing place = tree.listing place := by
  induction names generalizing tree changed place with
  | nil => rw [makeDirectories_nil_eq_ok h]
  | cons name names ih =>
    cases tree with
    | file bytes => cases h
    | directory entries =>
      obtain ⟨t, ht, rfl⟩ := makeDirectories_directory_eq_ok h
      cases place with
      | nil =>
        obtain ⟨hold, hnew⟩ := contents_of_makeDirectories ht
        rw [listing_directory_nil, listing_directory_nil]
        cases hlookup : entries.lookup name with
        | some old =>
          rw [hlookup, Option.getD_some] at hold
          rw [fileNames_assign_of_lookup hlookup (by rw [hnew, hold])]
        | none =>
          rw [fileNames_assign_of_none hlookup, fileNames_cons, hnew]
          exact congrArg some (List.append_nil _)
      | cons n rest =>
        rw [listing_assign]
        split
        · next hn => rw [ih ht, listing_getD, hn]
        · rfl

theorem contents_of_put (h : put new (name :: names) tree = .ok changed) :
    tree.contents = none ∧ changed.contents = none := by
  cases tree with
  | file bytes => cases h
  | directory entries =>
    obtain ⟨t, rfl, -⟩ := put_directory_eq_ok_iff.mp h
    exact ⟨rfl, rfl⟩

/-- **A file that is put in place is listed last in its directory if it is new.** No other listing
of a place that is not below it changes. -/
theorem listing_put_file (h : put (.file bytes) names tree = .ok changed)
    (hdirectory : tree.look names ≠ some none) (hplace : ¬names <+: place) :
    changed.listing place = tree.listing place ∨
      ∃ name, names = place ++ [name] ∧ tree.look names = none ∧
        changed.listing place = (tree.listing place).map (· ++ [name]) := by
  induction names generalizing tree changed place with
  | nil => exact absurd List.nil_prefix hplace
  | cons name names ih =>
    cases tree with
    | file b => cases h
    | directory entries =>
      obtain ⟨t, rfl, hold⟩ := put_directory_eq_ok_iff.mp h
      cases place with
      | nil =>
        rw [listing_directory_nil, listing_directory_nil]
        rcases hold with ⟨old, hlookup, hput⟩ | ⟨hlookup, rfl, rfl⟩
        · have hkind : t.contents.isSome = old.contents.isSome := by
            cases names with
            | nil =>
              cases hput
              rw [look_directory_cons, hlookup] at hdirectory
              cases old with
              | file b => rfl
              | directory es => exact absurd rfl hdirectory
            | cons n names =>
              obtain ⟨hold, hnew⟩ := contents_of_put hput
              rw [hold, hnew]
          exact .inl (congrArg some (fileNames_assign_of_lookup hlookup hkind))
        · refine .inr ⟨name, rfl, ?_, congrArg some (fileNames_assign_of_none hlookup _)⟩
          rw [look_directory_cons, hlookup]
          rfl
      | cons n rest =>
        rw [listing_assign]
        split
        · next hn =>
          have hrest : ¬names <+: rest := fun hprefix =>
            hplace (List.cons_prefix_cons.mpr ⟨hn.symm, hprefix⟩)
          rcases hold with ⟨old, hlookup, hput⟩ | ⟨-, rfl, -⟩
          · have hlook : (directory entries).look (name :: names) = old.look names := by
              rw [look_directory_cons, hlookup]
              rfl
            rw [hlook] at hdirectory ⊢
            rw [hn, listing_of_lookup hlookup]
            rcases ih hput hdirectory hrest with hsame | ⟨last, hnames, hnone, hlisting⟩
            · exact .inl hsame
            · exact .inr ⟨last, by rw [hnames, List.cons_append], hnone, hlisting⟩
          · exact absurd List.nil_prefix hrest
        · exact .inl rfl

end FileTree

namespace Disk

variable {d d' : Disk} {p q : Path} {bytes : List UInt8}

def listing (d : Disk) (p : Path) : Option (List String) := d.root.listing p.names

theorem listing_congr (h : d'.find q = d.find q) : d'.listing q = d.listing q :=
  FileTree.listing_congr h

theorem listing_makeDirectories (h : d.makeDirectories p = .ok d') (q : Path) :
    d'.listing q = d.listing q := by
  obtain ⟨root, hroot, rfl⟩ := Except.map_eq_ok_iff.mp h
  exact FileTree.listing_makeDirectories hroot q.names

/-- A file that is replaced is listed last in its directory if it is new; no other listing of a
place that is not below it changes. -/
theorem listing_replace (h : d.replace p bytes = (.ok (), d')) (hq : ¬p.Contains q) :
    d'.listing q = d.listing q ∨
      ∃ name, p = q.child name ∧ d.look p = none ∧
        d'.listing q = (d.listing q).map (· ++ [name]) := by
  obtain ⟨hdirectory, hput⟩ := replace_eq_ok h
  rcases FileTree.listing_put_file hput hdirectory hq with hsame | ⟨name, hnames, hnone, hlisting⟩
  · exact .inl hsame
  · exact .inr ⟨name, congrArg Path.mk hnames, hnone, hlisting⟩

end Disk

end QubePolicy
