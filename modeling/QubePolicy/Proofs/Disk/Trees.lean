import QubePolicy.FileTree
import QubePolicy.Proofs.Outcome

/-!
# What a change of a tree touches

* `FileTree.look`            what is at the end of some names: nothing, a directory, or the bytes of
                             a file;
* `FileTree.bytes?`          the bytes of the file there, if there is one;
* `find_put_of_apart`, `find_erase_of_apart`   a change at a place touches nothing apart from it;
* `look_put_of_not_prefix`   what is put in place shows at or below it only;
* `look_makeDirectories`, `bytes?_makeDirectories`   making directories touches no file, and nothing
                             but the directories it makes;
* `erase_put`, `erase_put_put`   a file put beside another one and erased again leaves no trace.
-/

namespace QubePolicy.FileTree

def contents : FileTree → Option (List UInt8)
  | .file bytes => some bytes
  | .directory _ => none

/-- What is at the end of the names, if anything: the bytes of a file, or a directory. -/
def look (tree : FileTree) (names : List String) : Option (Option (List UInt8)) :=
  (tree.find names).toOption.map contents

def bytes? (tree : FileTree) (names : List String) : Option (List UInt8) :=
  (tree.look names).join

variable {tree new other changed : FileTree} {name : String} {names place : List String}
  {entries : List (String × FileTree)}

theorem look_directory_cons : (directory entries).look (name :: names) =
    (entries.lookup name).bind fun tree => tree.look names := by
  unfold look
  rw [find]
  cases entries.lookup name with
  | none => rfl
  | some tree => rfl

theorem look_append : tree.look (names ++ place) =
    (tree.find names).toOption.bind fun t => t.look place := by
  unfold look
  rw [find_append]
  cases tree.find names with
  | ok t => rfl
  | error e => rfl

theorem look_of_find (h : tree.find names = .ok other) : tree.look names = some other.contents := by
  rw [look, h]
  rfl

/-! ## entries -/

theorem lookup_cons (n m : String) (t : FileTree) (entries : List (String × FileTree)) :
    ((m, t) :: entries).lookup n = if n = m then some t else entries.lookup n := by
  rw [List.lookup_cons]
  by_cases hn : n = m
  · simp [hn]
  · rw [if_neg hn, beq_false_of_ne hn]

theorem assign_cons (name : String) (tree : FileTree) (m : String) (t : FileTree)
    (entries : List (String × FileTree)) : assign name tree ((m, t) :: entries) =
      if m = name then (m, tree) :: entries else (m, t) :: assign name tree entries := by
  rw [assign]
  by_cases hm : m = name
  · simp [hm]
  · rw [if_neg hm, beq_false_of_ne hm, if_neg Bool.false_ne_true]

theorem lookup_assign (name : String) (tree : FileTree) (entries : List (String × FileTree))
    (n : String) : (assign name tree entries).lookup n =
      if n = name then some tree else entries.lookup n := by
  induction entries with
  | nil => rw [assign, lookup_cons]
  | cons e entries ih =>
    obtain ⟨m, t⟩ := e
    rw [assign_cons, lookup_cons]
    by_cases hm : m = name
    · rw [if_pos hm, lookup_cons, hm]
      split <;> rfl
    · rw [if_neg hm, lookup_cons, ih]
      by_cases hn : n = m
      · rw [if_pos hn, if_pos hn, if_neg (hn ▸ hm)]
      · rw [if_neg hn, if_neg hn]

theorem lookup_filter_ne (name : String) (entries : List (String × FileTree)) (n : String) :
    (entries.filter (·.1 != name)).lookup n = if n = name then none else entries.lookup n := by
  induction entries with
  | nil => simp
  | cons e entries ih =>
    obtain ⟨m, t⟩ := e
    by_cases hm : m = name
    · rw [List.filter_cons_of_neg (by simp [hm]), ih, lookup_cons, hm]
      split <;> rfl
    · rw [List.filter_cons_of_pos (by simpa using hm), lookup_cons, ih, lookup_cons]
      by_cases hn : n = m
      · rw [if_pos hn, if_pos hn, if_neg (hn ▸ hm)]
      · rw [if_neg hn, if_neg hn]

theorem assign_assign (name : String) (t u : FileTree) (entries : List (String × FileTree)) :
    assign name u (assign name t entries) = assign name u entries := by
  induction entries with
  | nil => rw [assign, assign_cons, if_pos rfl, assign]
  | cons e entries ih =>
    obtain ⟨m, v⟩ := e
    rw [assign_cons name t, assign_cons name u]
    by_cases hm : m = name
    · rw [if_pos hm, if_pos hm, assign_cons, if_pos hm]
    · rw [if_neg hm, if_neg hm, assign_cons, if_neg hm, ih]

theorem assign_of_lookup (h : entries.lookup name = some tree) : assign name tree entries = entries := by
  induction entries with
  | nil => cases h
  | cons e entries ih =>
    obtain ⟨m, t⟩ := e
    rw [lookup_cons] at h
    rw [assign_cons]
    by_cases hm : name = m
    · rw [if_pos hm] at h
      cases h
      rw [if_pos hm.symm]
    · rw [if_neg hm] at h
      rw [if_neg (Ne.symm hm), ih h]

theorem filter_ne_of_lookup (h : entries.lookup name = none) :
    entries.filter (·.1 != name) = entries := by
  rw [List.filter_eq_self]
  intro e he
  have hne : name ≠ e.1 := by simpa using List.lookup_eq_none_iff.mp h e he
  simpa using Ne.symm hne

theorem filter_assign_self (name : String) (tree : FileTree) (entries : List (String × FileTree)) :
    (assign name tree entries).filter (·.1 != name) = entries.filter (·.1 != name) := by
  induction entries with
  | nil => simp [assign]
  | cons e entries ih =>
    obtain ⟨m, t⟩ := e
    rw [assign_cons]
    by_cases hm : m = name
    · simp [hm]
    · simp [hm, ih]

theorem filter_assign_ne {n : String} (hn : n ≠ name) (tree : FileTree)
    (entries : List (String × FileTree)) : (assign n tree entries).filter (·.1 != name) =
      assign n tree (entries.filter (·.1 != name)) := by
  induction entries with
  | nil => simp [assign, hn]
  | cons e entries ih =>
    obtain ⟨m, t⟩ := e
    rw [assign_cons]
    by_cases hm : m = n
    · have hmn : m ≠ name := hm ▸ hn
      simp [hm, hn, assign_cons]
    · by_cases hmn : m = name
      · simp [hmn, ih, Ne.symm hn]
      · simp [hm, hmn, ih, assign_cons]

theorem look_assign (n : String) (rest : List String) :
    (directory (assign name tree entries)).look (n :: rest) =
      if n = name then tree.look rest else (directory entries).look (n :: rest) := by
  rw [look_directory_cons, look_directory_cons, lookup_assign]
  split <;> rfl

theorem find_assign (n : String) (rest : List String) :
    (directory (assign name tree entries)).find (n :: rest) =
      if n = name then tree.find rest else (directory entries).find (n :: rest) := by
  rw [find, find, lookup_assign]
  by_cases hn : n = name
  · rw [if_pos hn, if_pos hn]
  · rw [if_neg hn, if_neg hn]

theorem find_of_lookup (h : entries.lookup name = some tree) (rest : List String) :
    (directory entries).find (name :: rest) = tree.find rest := by
  rw [find, h]

/-! ## putting a tree in place -/

theorem put_directory_eq_ok_iff : put new (name :: names) (directory entries) = .ok changed ↔
    ∃ t, changed = directory (assign name t entries) ∧
      ((∃ old, entries.lookup name = some old ∧ put new names old = .ok t) ∨
        entries.lookup name = none ∧ names = [] ∧ t = new) := by
  rw [put.eq_def]
  simp only
  constructor
  · intro h
    split at h
    · next old hlookup =>
      obtain ⟨t, ht, h⟩ := Except.bind_eq_ok_iff.mp h
      cases h
      exact ⟨t, rfl, .inl ⟨old, hlookup, ht⟩⟩
    · next hlookup =>
      cases h
      exact ⟨new, rfl, .inr ⟨hlookup, rfl, rfl⟩⟩
    · cases h
  · rintro ⟨t, rfl, ⟨old, hlookup, ht⟩ | ⟨hlookup, rfl, rfl⟩⟩
    · rw [hlookup]
      simp only
      rw [ht]
      rfl
    · rw [hlookup]

theorem look_put (h : put new names tree = .ok changed) (rest : List String) :
    changed.look (names ++ rest) = new.look rest := by
  induction names generalizing tree changed with
  | nil =>
    cases h
    rfl
  | cons name names ih =>
    cases tree with
    | file bytes => cases h
    | directory entries =>
      obtain ⟨t, rfl, ⟨old, -, hput⟩ | ⟨-, rfl, rfl⟩⟩ := put_directory_eq_ok_iff.mp h
      · rw [List.cons_append, look_assign, if_pos rfl, ih hput]
      · rw [List.cons_append, look_assign, if_pos rfl, List.nil_append]

theorem look_put_of_not_prefix (h : put new names tree = .ok changed) (hplace : ¬names <+: place) :
    changed.look place = tree.look place := by
  induction names generalizing tree changed place with
  | nil => exact absurd List.nil_prefix hplace
  | cons name names ih =>
    cases tree with
    | file bytes => cases h
    | directory entries =>
      obtain ⟨t, rfl, hold⟩ := put_directory_eq_ok_iff.mp h
      cases place with
      | nil => rfl
      | cons n rest =>
        rw [look_assign]
        split
        · next hn =>
          have hrest : ¬names <+: rest := fun hprefix =>
            hplace (List.cons_prefix_cons.mpr ⟨hn.symm, hprefix⟩)
          rcases hold with ⟨old, hlookup, hput⟩ | ⟨-, rfl, -⟩
          · rw [ih hput hrest, hn, look_directory_cons, hlookup, Option.bind_some]
          · exact absurd List.nil_prefix hrest
        · rfl

/-- **Putting a tree in place touches nothing apart from it.** -/
theorem find_put_of_apart (h : put new names tree = .ok changed) (hnames : ¬names <+: place)
    (hplace : ¬place <+: names) : changed.find place = tree.find place := by
  induction names generalizing tree changed place with
  | nil => exact absurd List.nil_prefix hnames
  | cons name names ih =>
    cases tree with
    | file bytes => cases h
    | directory entries =>
      obtain ⟨t, rfl, hold⟩ := put_directory_eq_ok_iff.mp h
      cases place with
      | nil => exact absurd List.nil_prefix hplace
      | cons n rest =>
        rw [find_assign]
        split
        · next hn =>
          have hnames' : ¬names <+: rest := fun hprefix =>
            hnames (List.cons_prefix_cons.mpr ⟨hn.symm, hprefix⟩)
          have hplace' : ¬rest <+: names := fun hprefix =>
            hplace (List.cons_prefix_cons.mpr ⟨hn, hprefix⟩)
          rcases hold with ⟨old, hlookup, hput⟩ | ⟨-, rfl, -⟩
          · rw [ih hput hnames' hplace', hn, find_of_lookup hlookup]
          · exact absurd List.nil_prefix hnames'
        · rfl

/-! ## erasing -/

theorem erase_directory_cons (hnames : names ≠ []) : (directory entries).erase (name :: names) =
    match entries.lookup name with
    | some old => directory (assign name (old.erase names) entries)
    | none => directory entries := by
  cases names with
  | nil => exact absurd rfl hnames
  | cons n names => exact erase.eq_def _ _

/-- **Erasing touches nothing apart from the place.** -/
theorem find_erase_of_apart (tree : FileTree) (hnames : ¬names <+: place)
    (hplace : ¬place <+: names) : (tree.erase names).find place = tree.find place := by
  induction names generalizing tree place with
  | nil => exact absurd List.nil_prefix hnames
  | cons name names ih =>
    cases tree with
    | file bytes => rw [erase]
    | directory entries =>
      cases place with
      | nil => exact absurd List.nil_prefix hplace
      | cons n rest =>
        by_cases hnil : names = []
        · have hn : n ≠ name := fun hn =>
            hnames (List.cons_prefix_cons.mpr ⟨hn.symm, hnil ▸ List.nil_prefix⟩)
          rw [hnil, erase, find, find, lookup_filter_ne, if_neg hn]
        · rw [erase_directory_cons hnil]
          cases hlookup : entries.lookup name with
          | none => rfl
          | some old =>
            simp only
            rw [find_assign]
            split
            · next hn =>
              have hnames' : ¬names <+: rest := fun hprefix =>
                hnames (List.cons_prefix_cons.mpr ⟨hn.symm, hprefix⟩)
              have hplace' : ¬rest <+: names := fun hprefix =>
                hplace (List.cons_prefix_cons.mpr ⟨hn, hprefix⟩)
              rw [ih old hnames' hplace', hn, find_of_lookup hlookup]
            · rfl

/-! ## making directories -/

theorem makeDirectories_directory_eq_ok
    (h : makeDirectories (name :: names) (directory entries) = .ok changed) :
    ∃ t, makeDirectories names ((entries.lookup name).getD (directory [])) = .ok t ∧
      changed = directory (assign name t entries) := by
  obtain ⟨t, ht, h⟩ := Except.bind_eq_ok_iff.mp h
  cases h
  exact ⟨t, ht, rfl⟩

theorem makeDirectories_nil_eq_ok (h : makeDirectories [] tree = .ok changed) : changed = tree := by
  cases tree with
  | file bytes => cases h
  | directory entries =>
    cases h
    rfl

theorem contents_of_makeDirectories (h : makeDirectories names tree = .ok changed) :
    tree.contents = none ∧ changed.contents = none := by
  cases tree with
  | file bytes => cases names <;> cases h
  | directory entries =>
    cases names with
    | nil =>
      rw [makeDirectories_nil_eq_ok h]
      exact ⟨rfl, rfl⟩
    | cons name names =>
      obtain ⟨t, -, rfl⟩ := makeDirectories_directory_eq_ok h
      exact ⟨rfl, rfl⟩

theorem look_getD (entries : List (String × FileTree)) (name : String) {rest : List String}
    (hrest : rest ≠ []) : ((entries.lookup name).getD (directory [])).look rest =
      (directory entries).look (name :: rest) := by
  rw [look_directory_cons]
  cases entries.lookup name with
  | some old => rfl
  | none =>
    cases rest with
    | nil => exact absurd rfl hrest
    | cons n rest => rfl

/-- **Making directories touches nothing but the directories that are made.** -/
theorem look_makeDirectories (h : makeDirectories names tree = .ok changed)
    (hplace : ¬place <+: names) : changed.look place = tree.look place := by
  induction names generalizing tree changed place with
  | nil => rw [makeDirectories_nil_eq_ok h]
  | cons name names ih =>
    cases tree with
    | file bytes => cases h
    | directory entries =>
      obtain ⟨t, ht, rfl⟩ := makeDirectories_directory_eq_ok h
      cases place with
      | nil => exact absurd List.nil_prefix hplace
      | cons n rest =>
        rw [look_assign]
        split
        · next hn =>
          have hrest : ¬rest <+: names := fun hprefix =>
            hplace (List.cons_prefix_cons.mpr ⟨hn, hprefix⟩)
          have hne : rest ≠ [] := fun hnil => hrest (hnil ▸ List.nil_prefix)
          rw [ih ht hrest, look_getD entries name hne, hn]
        · rfl

/-- **Making directories changes no file.** -/
theorem bytes?_makeDirectories (h : makeDirectories names tree = .ok changed)
    (place : List String) : changed.bytes? place = tree.bytes? place := by
  induction names generalizing tree changed place with
  | nil => rw [makeDirectories_nil_eq_ok h]
  | cons name names ih =>
    cases tree with
    | file bytes => cases h
    | directory entries =>
      obtain ⟨t, ht, rfl⟩ := makeDirectories_directory_eq_ok h
      cases place with
      | nil => rfl
      | cons n rest =>
        unfold bytes?
        rw [look_assign]
        split
        · next hn =>
          have hbytes : (t.look rest).join =
              (((entries.lookup name).getD (directory [])).look rest).join := ih ht rest
          rw [hn, hbytes, look_directory_cons]
          cases entries.lookup name with
          | some old => rfl
          | none => cases rest <;> rfl
        · rfl

/-! ## a file beside another one -/

variable {t n : String} {es : List (String × FileTree)} {aside root once twice : FileTree}

theorem find_directory_cons_eq_ok (h : (directory entries).find (name :: names) = .ok other) :
    ∃ old, entries.lookup name = some old ∧ old.find names = .ok other := by
  rw [find] at h
  cases hlookup : entries.lookup name with
  | some old =>
    rw [hlookup] at h
    exact ⟨old, rfl, h⟩
  | none =>
    rw [hlookup] at h
    cases h

/-- What is put under a new name and erased again leaves no trace. -/
theorem erase_put (hfind : root.find names = .ok (directory es)) (hfresh : es.lookup t = none)
    (hput : put aside (names ++ [t]) root = .ok once) : once.erase (names ++ [t]) = root := by
  induction names generalizing root once with
  | nil =>
    cases hfind
    obtain ⟨u, rfl, ⟨old, hlookup, -⟩ | ⟨-, -, rfl⟩⟩ := put_directory_eq_ok_iff.mp hput
    · rw [hfresh] at hlookup
      cases hlookup
    · rw [List.nil_append, erase, filter_assign_self, filter_ne_of_lookup hfresh]
  | cons name names ih =>
    cases root with
    | file bytes => cases hfind
    | directory entries =>
      obtain ⟨old, hlookup, hfind⟩ := find_directory_cons_eq_ok hfind
      obtain ⟨u, rfl, ⟨old', hlookup', hput⟩ | ⟨hnone, -⟩⟩ := put_directory_eq_ok_iff.mp hput
      · obtain rfl : old = old' := Option.some.inj (hlookup.symm.trans hlookup')
        rw [List.cons_append, erase_directory_cons (by simp), lookup_assign, if_pos rfl]
        simp only
        rw [ih hfind hput, assign_assign, assign_of_lookup hlookup]
      · rw [hlookup] at hnone
        cases hnone

theorem erase_put_put (hfind : root.find names = .ok (directory es)) (hfresh : es.lookup t = none)
    (htn : t ≠ n) (haside : put aside (names ++ [t]) root = .ok once)
    (hnew : put new (names ++ [n]) once = .ok twice) :
    put new (names ++ [n]) root = .ok (twice.erase (names ++ [t])) := by
  induction names generalizing root once twice with
  | nil =>
    cases hfind
    obtain ⟨u, rfl, ⟨old, hlookup, -⟩ | ⟨-, -, rfl⟩⟩ := put_directory_eq_ok_iff.mp haside
    · rw [hfresh] at hlookup
      cases hlookup
    obtain ⟨v, rfl, hv⟩ := put_directory_eq_ok_iff.mp hnew
    rw [lookup_assign, if_neg (Ne.symm htn)] at hv
    rw [List.nil_append, List.nil_append, erase, filter_assign_ne (Ne.symm htn),
      filter_assign_self, filter_ne_of_lookup hfresh]
    exact put_directory_eq_ok_iff.mpr ⟨v, rfl, hv⟩
  | cons name names ih =>
    cases root with
    | file bytes => cases hfind
    | directory entries =>
      obtain ⟨old, hlookup, hfind⟩ := find_directory_cons_eq_ok hfind
      obtain ⟨u, rfl, ⟨old', hlookup', haside⟩ | ⟨hnone, -⟩⟩ :=
        put_directory_eq_ok_iff.mp haside
      · obtain rfl : old = old' := Option.some.inj (hlookup.symm.trans hlookup')
        obtain ⟨v, rfl, ⟨old', hlookup', hnew⟩ | ⟨hnone, -⟩⟩ := put_directory_eq_ok_iff.mp hnew
        · rw [lookup_assign, if_pos rfl, Option.some.injEq] at hlookup'
          rw [← hlookup'] at hnew
          rw [List.cons_append, List.cons_append, erase_directory_cons (by simp), lookup_assign,
            if_pos rfl]
          simp only
          rw [assign_assign, assign_assign]
          exact put_directory_eq_ok_iff.mpr
            ⟨_, rfl, .inl ⟨old, hlookup, ih hfind haside hnew⟩⟩
        · rw [lookup_assign, if_pos rfl] at hnone
          cases hnone
      · rw [hlookup] at hnone
        cases hnone

end QubePolicy.FileTree
