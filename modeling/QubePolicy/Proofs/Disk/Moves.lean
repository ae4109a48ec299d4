import QubePolicy.Proofs.Disk.Files

/-!
# What moving and appending leave

* `FileTree.look_erase_below`, `look_erase_of_not_prefix`   what is erased is gone with all below it,
                              and nothing else is;
* `Disk.look_rename_source`, `look_rename_target`   what was at the source, and below it, is at the
                              target instead;
* `Disk.look_rename_of_not_contains`   nothing else is touched;
* `Disk.look_append`          appending to a file, told in full;
* `Disk.directory_of_append`  it leaves the directories.
-/

namespace QubePolicy

namespace FileTree

variable {names place : List String}

theorem look_erase_below (hnames : names ≠ []) (tree : FileTree) (rest : List String) :
    (tree.erase names).look (names ++ rest) = none := by
  induction names generalizing tree with
  | nil => exact absurd rfl hnames
  | cons name names ih =>
    cases tree with
    | file bytes => rfl
    | directory entries =>
      by_cases hnil : names = []
      · rw [hnil, erase, List.singleton_append, look_directory_cons, lookup_filter_ne, if_pos rfl]
        rfl
      · rw [erase_directory_cons hnil]
        cases hlookup : entries.lookup name with
        | none =>
          show (directory entries).look (name :: (names ++ rest)) = none
          rw [look_directory_cons, hlookup]
          rfl
        | some old =>
          show (directory (assign name (old.erase names) entries)).look
            (name :: (names ++ rest)) = none
          rw [look_assign, if_pos rfl]
          exact ih hnil old

theorem look_erase_of_not_prefix (tree : FileTree) (hplace : ¬names <+: place) :
    (tree.erase names).look place = tree.look place := by
  induction names generalizing tree place with
  | nil => exact absurd List.nil_prefix hplace
  | cons name names ih =>
    cases tree with
    | file bytes => rw [erase]
    | directory entries =>
      cases place with
      | nil =>
        by_cases hnil : names = []
        · rw [hnil, erase]
          rfl
        · rw [erase_directory_cons hnil]
          cases entries.lookup name <;> rfl
      | cons n rest =>
        have hrest : n = name → ¬names <+: rest := fun hn hprefix =>
          hplace (List.cons_prefix_cons.mpr ⟨hn.symm, hprefix⟩)
        by_cases hnil : names = []
        · have hn : n ≠ name := fun hn => hrest hn (hnil ▸ List.nil_prefix)
          rw [hnil, erase, look_directory_cons, lookup_filter_ne, if_neg hn, look_directory_cons]
        · rw [erase_directory_cons hnil]
          cases hlookup : entries.lookup name with
          | none => rfl
          | some old =>
            show (directory (assign name (old.erase names) entries)).look (n :: rest) = _
            rw [look_assign]
            split
            · next hn => rw [ih old (hrest hn), hn, look_directory_cons, hlookup, Option.bind_some]
            · rfl

end FileTree

namespace Disk

variable {d d' : Disk} {p q source target : Path} {bytes : List UInt8}

/-! ## moving -/

theorem look_below_of_mayReplace {tree : FileTree} (h : d.mayReplace tree target = .ok ())
    (hq : target.Contains q) (hne : q ≠ target) : d.look q = none := by
  obtain ⟨name, rest, hrest⟩ := Path.exists_below hq hne
  rw [look, hrest, FileTree.look_append]
  unfold mayReplace find at h
  cases hfind : d.root.find target.names with
  | error e => rfl
  | ok there =>
    rw [hfind] at h
    cases there with
    | file b => rfl
    | directory entries =>
      cases entries with
      | nil => rfl
      | cons e entries => cases tree <;> cases h

theorem look_rename_source (h : d.rename source target = .ok d') (hne : source ≠ target)
    (hq : source.Contains q) : d'.look q = none := by
  rcases rename_eq_ok h with ⟨hsame, -⟩ | ⟨tree, root, -, hbelow, -, -, rfl⟩
  · exact absurd hsame hne
  · have hnames : source.names ≠ [] := fun hnil => hbelow (by
      show source.names <+: target.names
      rw [hnil]
      exact List.nil_prefix)
    obtain ⟨rest, hrest⟩ := Path.contains_iff.mp hq
    show (root.erase source.names).look q.names = none
    rw [hrest]
    exact FileTree.look_erase_below hnames root rest

/-- **What was at the source, and below it, is at the target.** -/
theorem look_rename_target (h : d.rename source target = .ok d') (rest : List String) :
    d'.look ⟨target.names ++ rest⟩ = d.look ⟨source.names ++ rest⟩ := by
  rcases rename_eq_ok h with ⟨hsame, rfl⟩ | ⟨tree, root, hfind, hbelow, hmay, hput, rfl⟩
  · rw [hsame]
  · have hsource : ¬source.Contains ⟨target.names ++ rest⟩ := by
      intro hcontains
      rcases List.prefix_or_prefix_of_prefix hcontains (List.prefix_append _ _) with hp | hp
      · exact hbelow hp
      · have hne : source ≠ target := fun hsame => hbelow (hsame ▸ List.prefix_refl _)
        have hnone := look_below_of_mayReplace hmay hp hne
        rw [look_of_find hfind] at hnone
        cases hnone
    show (root.erase source.names).look (target.names ++ rest) = d.root.look (source.names ++ rest)
    rw [FileTree.look_erase_of_not_prefix root hsource, FileTree.look_put hput,
      FileTree.look_append, show d.root.find source.names = .ok tree from hfind]
    rfl

/-- **Moving touches nothing but what is at or below its two places.** -/
theorem look_rename_of_not_contains (h : d.rename source target = .ok d')
    (hsource : ¬source.Contains q) (htarget : ¬target.Contains q) : d'.look q = d.look q := by
  rcases rename_eq_ok h with ⟨-, rfl⟩ | ⟨tree, root, -, -, -, hput, rfl⟩
  · rfl
  · show (root.erase source.names).look q.names = _
    rw [FileTree.look_erase_of_not_prefix root hsource]
    exact FileTree.look_put_of_not_prefix hput htarget

theorem look_below_target (h : d.rename source target = .ok d') (hne : source ≠ target)
    (hq : target.Contains q) (hqne : q ≠ target) : d.look q = none := by
  rcases rename_eq_ok h with ⟨hsame, -⟩ | ⟨tree, root, -, -, hmay, -, -⟩
  · exact absurd hsame hne
  · exact look_below_of_mayReplace hmay hq hqne

/-! ## appending -/

theorem look_append (h : d.append p bytes = .ok d') (q : Path) :
    d'.look q = if q = p then some (some ((d.bytes? p).getD [] ++ bytes)) else d.look q := by
  have hread := toOption_read d p
  unfold append at h
  split at h
  · next before hbefore =>
    rw [hbefore] at hread
    rw [← hread]
    exact look_write h q
  · next hmissing =>
    rw [hmissing] at hread
    rw [← hread]
    exact look_write h q
  · cases h

theorem directory_of_append (h : d.append p bytes = .ok d') (hq : d.look q = some none) :
    d'.look q = some none := by
  have hp : d.look p ≠ some none := by
    unfold append at h
    split at h
    · exact (write_eq_ok h).1
    · exact (write_eq_ok h).1
    · cases h
  have hne : q ≠ p := by
    rintro rfl
    exact hp hq
  rw [look_append h, if_neg hne, hq]

end Disk

end QubePolicy
