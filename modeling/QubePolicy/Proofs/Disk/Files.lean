import QubePolicy.Disk
import QubePolicy.Proofs.Disk.Trees

/-!
# What a change of the disk touches

* `Path.Contains`, `Path.Apart`   a place at or below another one, and neither of the two;
* `Disk.look`, `Disk.bytes?` what is at a place, and the bytes of the file there;
* `find_append_of_apart`, `find_rename_of_apart`   a change touches nothing apart from its places;
* `look_makeDirectories`, `bytes?_makeDirectories`   making directories touches no file;
* `replace_eq_ok`            replacing a file comes to putting the new bytes in place;
* `replace_eq_error`         if it fails, the disk is as it was.
-/

namespace QubePolicy

/-! ## places -/

/-- The second place is the first one, or lies below it. -/
def Path.Contains (base p : Path) : Prop := base.names <+: p.names

instance (base p : Path) : Decidable (base.Contains p) :=
  inferInstanceAs (Decidable (base.names <+: p.names))

def Path.Apart (p q : Path) : Prop := ¬p.Contains q ∧ ¬q.Contains p

instance (p q : Path) : Decidable (p.Apart q) :=
  inferInstanceAs (Decidable (¬p.Contains q ∧ ¬q.Contains p))

namespace Path

variable {p q : Path}

theorem contains_child (p : Path) (name : String) : p.Contains (p.child name) :=
  List.prefix_append _ _

theorem contains_iff : p.Contains q ↔ ∃ rest, q.names = p.names ++ rest := by
  constructor
  · rintro ⟨rest, h⟩
    exact ⟨rest, h.symm⟩
  · rintro ⟨rest, h⟩
    exact ⟨rest, h.symm⟩

theorem isSome_below?_iff : (p.below? q).isSome = true ↔ p.Contains q := by
  rw [below?, Option.isSome_iff_exists, contains_iff]
  exact exists_congr fun rest => Text.rest?_eq_some_iff

theorem exists_below (h : p.Contains q) (hne : q ≠ p) :
    ∃ name rest, q.names = p.names ++ name :: rest := by
  obtain ⟨rest, hrest⟩ := contains_iff.mp h
  cases rest with
  | nil =>
    rw [List.append_nil] at hrest
    exact absurd (congrArg Path.mk hrest) hne
  | cons name rest => exact ⟨name, rest, hrest⟩

theorem names_eq_parent (h : p.names ≠ []) : p.names = p.parent.names ++ [p.name] := by
  rw [parent, name, List.getLast?_eq_some_getLast h, Option.getD_some,
    List.dropLast_concat_getLast h]

theorem Apart.child {directory : Path} (h : p.Apart directory) (name : String) :
    p.Apart (directory.child name) := by
  constructor
  · intro hcontains
    rcases List.prefix_or_prefix_of_prefix hcontains (directory.contains_child name) with hp | hp
    · exact h.1 hp
    · exact h.2 hp
  · exact fun hcontains => h.2 (List.IsPrefix.trans (directory.contains_child name) hcontains)

end Path

namespace Disk

variable {d d' : Disk} {p q source target : Path} {bytes : List UInt8}

/-! ## what is there -/

/-- What is at a place, if anything: the bytes of a file, or a directory. -/
def look (d : Disk) (p : Path) : Option (Option (List UInt8)) := d.root.look p.names

def bytes? (d : Disk) (p : Path) : Option (List UInt8) := (d.look p).join

theorem look_of_find {tree : FileTree} (h : d.find p = .ok tree) : d.look p = some tree.contents :=
  FileTree.look_of_find h

theorem look_congr (h : d'.find q = d.find q) : d'.look q = d.look q := by
  unfold look FileTree.look
  rw [show d'.root.find q.names = d.root.find q.names from h]

theorem bytes?_congr (h : d'.find q = d.find q) : d'.bytes? q = d.bytes? q := by
  rw [bytes?, bytes?, look_congr h]

theorem exists?_eq (d : Disk) (p : Path) : d.exists? p = (d.look p).isSome := by
  unfold exists? look FileTree.look find
  cases d.root.find p.names <;> rfl

theorem toOption_read (d : Disk) (p : Path) : (d.read p).toOption = d.bytes? p := by
  unfold read bytes? look FileTree.look find
  cases d.root.find p.names with
  | error e => rfl
  | ok tree => cases tree <;> rfl

theorem read_eq_ok_iff : d.read p = .ok bytes ↔ d.bytes? p = some bytes := by
  rw [← toOption_read]
  cases d.read p <;> simp [Except.toOption]

theorem readText_of_bytes? (h : d.bytes? p = some bytes) :
    d.readText p = .ok (Text.Utf8.decode bytes) := by
  rw [readText, read_eq_ok_iff.mpr h]
  rfl

theorem readText_eq_ok_iff {text : String} : d.readText p = .ok text ↔
    ∃ bytes, d.bytes? p = some bytes ∧ Text.Utf8.decode bytes = text := by
  unfold readText
  simp only [Except.map_eq_ok_iff, read_eq_ok_iff]

theorem find_eq_file (h : d.look p = some (some bytes)) : d.find p = .ok (.file bytes) := by
  unfold look FileTree.look at h
  unfold find
  cases hfind : d.root.find p.names with
  | error e =>
    rw [hfind] at h
    cases h
  | ok tree =>
    rw [hfind] at h
    cases tree with
    | file b =>
      cases h
      rfl
    | directory entries => cases h

theorem exists_find_of_directory (h : d.look p = some none) :
    ∃ entries, d.find p = .ok (.directory entries) := by
  unfold look FileTree.look at h
  unfold find
  cases hfind : d.root.find p.names with
  | error e =>
    rw [hfind] at h
    cases h
  | ok tree =>
    rw [hfind] at h
    cases tree with
    | file b => cases h
    | directory entries => exact ⟨entries, rfl⟩

theorem entries_eq_ok {es : List (String × FileTree)} (h : d.entries p = .ok es) :
    d.root.find p.names = .ok (.directory es) := by
  obtain ⟨tree, hfind, h⟩ := Except.bind_eq_ok_iff.mp h
  cases tree with
  | file bytes => cases h
  | directory entries =>
    cases h
    exact hfind

theorem look_below (hp : d.look p ≠ some none) (hq : p.Contains q) (hne : q ≠ p) :
    d.look q = none := by
  obtain ⟨name, rest, hrest⟩ := Path.exists_below hq hne
  rw [look, hrest, FileTree.look_append]
  cases hfind : d.root.find p.names with
  | error e => rfl
  | ok tree =>
    cases tree with
    | file bytes => rfl
    | directory entries => exact absurd (FileTree.look_of_find hfind) hp

/-! ## single changes -/

/-- Once a file is put where no directory is, it is there, and nothing else is touched. -/
theorem look_put_file {root : FileTree} (hp : d.look p ≠ some none)
    (h : FileTree.put (.file bytes) p.names d.root = .ok root) (q : Path) :
    root.look q.names = if q = p then some (some bytes) else d.look q := by
  split
  · next hq =>
    have hput := FileTree.look_put h []
    rw [List.append_nil] at hput
    rw [hq, hput]
    rfl
  · next hq =>
    by_cases hcontains : p.Contains q
    · obtain ⟨name, rest, hrest⟩ := Path.exists_below hcontains hq
      rw [look_below hp hcontains hq, hrest, FileTree.look_put h]
      rfl
    · exact FileTree.look_put_of_not_prefix h hcontains

theorem write_eq_ok (h : d.write p bytes = .ok d') : d.look p ≠ some none ∧
    FileTree.put (.file bytes) p.names d.root = .ok d'.root := by
  unfold write at h
  split at h
  · cases h
  · next hdirectory =>
    obtain ⟨root, hroot, rfl⟩ := Except.map_eq_ok_iff.mp h
    refine ⟨fun hlook => ?_, hroot⟩
    cases hfind : d.find p with
    | error e =>
      rw [look, FileTree.look, show d.root.find p.names = .error e from hfind] at hlook
      cases hlook
    | ok tree =>
      rw [look_of_find hfind] at hlook
      cases tree with
      | file b => cases hlook
      | directory entries => exact hdirectory entries hfind

theorem look_write (h : d.write p bytes = .ok d') (q : Path) :
    d'.look q = if q = p then some (some bytes) else d.look q :=
  look_put_file (write_eq_ok h).1 (write_eq_ok h).2 q

theorem find_append_of_apart (h : d.append p bytes = .ok d') (hq : p.Apart q) :
    d'.find q = d.find q := by
  have hwrite {new : List UInt8} (h : d.write p new = .ok d') : d'.find q = d.find q :=
    FileTree.find_put_of_apart (write_eq_ok h).2 hq.1 hq.2
  unfold append at h
  split at h
  · exact hwrite h
  · exact hwrite h
  · cases h

/-- Making directories touches nothing but the directories that are made. -/
theorem look_makeDirectories (h : d.makeDirectories p = .ok d') (hq : ¬q.Contains p) :
    d'.look q = d.look q := by
  obtain ⟨root, hroot, rfl⟩ := Except.map_eq_ok_iff.mp h
  exact FileTree.look_makeDirectories hroot hq

theorem bytes?_makeDirectories (h : d.makeDirectories p = .ok d') (q : Path) :
    d'.bytes? q = d.bytes? q := by
  obtain ⟨root, hroot, rfl⟩ := Except.map_eq_ok_iff.mp h
  exact FileTree.bytes?_makeDirectories hroot q.names

theorem rename_eq_ok (h : d.rename source target = .ok d') : source = target ∧ d' = d ∨
    ∃ tree root, d.find source = .ok tree ∧ ¬source.Contains target ∧
      d.mayReplace tree target = .ok () ∧
      FileTree.put tree target.names d.root = .ok root ∧ d' = ⟨root.erase source.names⟩ := by
  obtain ⟨tree, htree, h⟩ := Except.bind_eq_ok_iff.mp h
  split at h
  · next hsame =>
    cases h
    exact .inl ⟨hsame, rfl⟩
  · split at h
    · cases h
    · next hbelow =>
      obtain ⟨_, hmay, h⟩ := Except.bind_eq_ok_iff.mp h
      obtain ⟨root, hroot, h⟩ := Except.bind_eq_ok_iff.mp h
      cases h
      exact .inr ⟨tree, root, htree, fun hc => hbelow (Path.isSome_below?_iff.mpr hc), hmay,
        hroot, rfl⟩

theorem find_rename_of_apart (h : d.rename source target = .ok d') (hsource : source.Apart q)
    (htarget : target.Apart q) : d'.find q = d.find q := by
  rcases rename_eq_ok h with ⟨-, rfl⟩ | ⟨tree, root, -, -, -, hput, rfl⟩
  · rfl
  · show (root.erase source.names).find q.names = _
    rw [FileTree.find_erase_of_apart root hsource.1 hsource.2]
    exact FileTree.find_put_of_apart hput htarget.1 htarget.2

theorem look_of_mayReplace (h : d.mayReplace (.file bytes) target = .ok ()) :
    d.look target ≠ some none := by
  intro hlook
  unfold mayReplace at h
  cases hfind : d.find target with
  | error e =>
    rw [look, FileTree.look, show d.root.find target.names = .error e from hfind] at hlook
    cases hlook
  | ok tree =>
    rw [look_of_find hfind] at hlook
    rw [hfind] at h
    cases tree with
    | file b => cases hlook
    | directory entries => cases entries <;> cases h

/-! ## replacing a file -/

theorem le_foldl_max (ns : List Nat) (start : Nat) :
    start ≤ ns.foldl max start ∧ ∀ n ∈ ns, n ≤ ns.foldl max start := by
  induction ns generalizing start with
  | nil => exact ⟨Nat.le_refl _, fun n hn => absurd hn List.not_mem_nil⟩
  | cons m ns ih =>
    obtain ⟨hstart, hall⟩ := ih (max start m)
    refine ⟨Nat.le_trans (Nat.le_max_left _ _) hstart, fun n hn => ?_⟩
    rcases List.mem_cons.mp hn with rfl | hn
    · exact Nat.le_trans (Nat.le_max_right _ _) hstart
    · exact hall n hn

theorem length_freshName (base : String) (es : List (String × FileTree)) :
    (freshName base es).length =
      base.length + ((es.map fun e => e.1.length).foldl max 0) + 6 := by
  have hdot : ".".length = 1 := by decide
  have htmp : ".tmp".length = 4 := by decide
  simp only [freshName, toString, String.length_append, String.length_ofList,
    List.length_replicate, hdot, htmp]
  omega

theorem lookup_freshName (base : String) (es : List (String × FileTree)) :
    es.lookup (freshName base es) = none := by
  rw [List.lookup_eq_none_iff]
  intro e he
  have hle := (le_foldl_max (es.map fun e => e.1.length) 0).2 _ (List.mem_map_of_mem he)
  have hne : freshName base es ≠ e.1 := by
    intro hname
    have hlength := length_freshName base es
    rw [hname] at hlength
    omega
  simpa using hne

theorem freshName_ne (base : String) (es : List (String × FileTree)) : freshName base es ≠ base := by
  intro hname
  have hlength := length_freshName base es
  rw [hname] at hlength
  omega

theorem ne_child_freshName (p : Path) (es : List (String × FileTree)) :
    p ≠ p.parent.child (freshName p.name es) := by
  intro hp
  have hname : p.name = freshName p.name es := by
    conv => lhs; rw [hp]
    simp [Path.child, Path.name]
  exact freshName_ne p.name es hname.symm

/-- **Replacing a file comes to putting the new bytes in place**, where there is no directory. -/
theorem replace_eq_ok (h : d.replace p bytes = (.ok (), d')) :
    d.look p ≠ some none ∧ FileTree.put (.file bytes) p.names d.root = .ok d'.root := by
  unfold replace at h
  split at h
  · cases h
  · next es hes =>
    simp only at h
    split at h
    · cases h
    · next written hwritten =>
      split at h
      · cases h
      · next moved hmoved =>
        cases h
        have hne := ne_child_freshName p es
        have hlook := look_write hwritten
        rcases rename_eq_ok hmoved with ⟨hp, -⟩ | ⟨tree, root, hfind, -, hmay, hput, rfl⟩
        · exact absurd hp.symm hne
        have hfile := find_eq_file ((hlook _).trans (if_pos rfl))
        obtain rfl : tree = .file bytes := Except.ok.inj (hfind.symm.trans hfile)
        have hdirectory : d.look p ≠ some none := by
          have hwritten := look_of_mayReplace hmay
          rwa [hlook, if_neg hne] at hwritten
        have hparent := entries_eq_ok hes
        have hnames : p.names ≠ [] := by
          intro hnil
          have hroot : p.parent = p := by
            rw [Path.parent, hnil]
            exact congrArg Path.mk hnil.symm
          rw [hroot] at hparent
          exact hdirectory (FileTree.look_of_find hparent)
        refine ⟨hdirectory, ?_⟩
        rw [Path.names_eq_parent hnames] at hput ⊢
        exact FileTree.erase_put_put hparent (lookup_freshName p.name es)
          (freshName_ne p.name es) (write_eq_ok hwritten).2 hput

/-- **If replacing fails, the disk is as it was.** -/
theorem replace_eq_error {e : SystemFault} (h : d.replace p bytes = (.error e, d')) : d' = d := by
  unfold replace at h
  split at h
  · cases h
    rfl
  · next es hes =>
    simp only at h
    split at h
    · cases h
      rfl
    · next written hwritten =>
      split at h
      · cases h
        have herase := FileTree.erase_put (entries_eq_ok hes) (lookup_freshName p.name es)
          (write_eq_ok hwritten).2
        exact congrArg Disk.mk herase
      · cases h

theorem look_replace (h : d.replace p bytes = (.ok (), d')) (q : Path) :
    d'.look q = if q = p then some (some bytes) else d.look q :=
  look_put_file (replace_eq_ok h).1 (replace_eq_ok h).2 q

end Disk

end QubePolicy
