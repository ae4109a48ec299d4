import QubePolicy.Proofs.Evaluation.Flattening
import QubePolicy.Store.Includes
import Mathlib.Data.Finset.Card

/-!
# Scanning comes to an end

Scanning as steps that know nothing of how many files there are: an include line may lead to any
files, and to the same ones again.

* `Evaluation.Finishes`       a scan ends with a result, files entered in one another to a depth;
* `Finishes.found_eq`         what it ends with is what the functions give;
* `Finishes.depth_le`         no more files are in one another than there are names off the chain;
* `exists_finishes_lines`, `exists_finishes_files`   every scan ends;
* `explain_finishes`          whatever includes what, the deciding rule is found, and the depth is
                              at most the number of names;
* `Store.explain_finishes_loadable`   so it is for the files of a store.
-/

namespace QubePolicy

namespace Evaluation

variable {ε : Type}

/-! ## steps -/

/-- What is scanned: lines of the file with a name, or files. -/
inductive Task where
  | lines (file : String) (ls : List Line)
  | files (fs : List PolicyFile)

/-- **A scan ends.** With the files of a chain being scanned, it goes through lines or files and
ends with a result; the depth is that of the files entered inside one another, where a file that is
passed over is not entered. -/
inductive Finishes (resolve : Directive → String → Except ε (List PolicyFile)) (request : Request) :
    List String → Task → Except ε (Option Match) → Nat → Prop
  | noLines {chain file} : Finishes resolve request chain (.lines file []) (.ok none) 0
  | noFiles {chain} : Finishes resolve request chain (.files []) (.ok none) 0
  | inert {chain file l ls found depth} : (∀ directive path, l.content ≠ .includes directive path) →
      (∀ r, l.content = .rule r → r.covers request = false) →
      Finishes resolve request chain (.lines file ls) found depth →
      Finishes resolve request chain (.lines file (l :: ls)) found depth
  | rule {chain file l ls r} : l.content = .rule r → r.covers request = true →
      Finishes resolve request chain (.lines file (l :: ls)) (.ok (some ⟨r, l.number, file⟩)) 0
  | unresolved {chain file l ls directive path e} : l.content = .includes directive path →
      resolve directive path = .error e →
      Finishes resolve request chain (.lines file (l :: ls)) (.error e) 0
  | included {chain file l ls directive path fs found depth} :
      l.content = .includes directive path → resolve directive path = .ok fs →
      Finishes resolve request chain (.files fs) found depth → found ≠ .ok none →
      Finishes resolve request chain (.lines file (l :: ls)) found depth
  | includedNone {chain file l ls directive path fs found inside depth} :
      l.content = .includes directive path → resolve directive path = .ok fs →
      Finishes resolve request chain (.files fs) (.ok none) inside →
      Finishes resolve request chain (.lines file ls) found depth →
      Finishes resolve request chain (.lines file (l :: ls)) found (max inside depth)
  | passedOver {chain f fs found depth} : chain.contains f.name = true →
      Finishes resolve request chain (.files fs) found depth →
      Finishes resolve request chain (.files (f :: fs)) found depth
  | entered {chain f fs found inside} : chain.contains f.name = false →
      Finishes resolve request (f.name :: chain) (.lines f.name f.lines) found inside →
      found ≠ .ok none →
      Finishes resolve request chain (.files (f :: fs)) found (inside + 1)
  | enteredNone {chain f fs found inside depth} : chain.contains f.name = false →
      Finishes resolve request (f.name :: chain) (.lines f.name f.lines) (.ok none) inside →
      Finishes resolve request chain (.files fs) found depth →
      Finishes resolve request chain (.files (f :: fs)) found (max (inside + 1) depth)

/-! ## results -/

def scan (inc : Includes ε) (request : Request) (chain : List String) :
    Task → Except ε (Option Match)
  | .lines file ls => scanLines inc request chain file ls
  | .files fs => scanFiles inc request chain fs

variable {inc : Includes ε} {request : Request} {chain : List String} {file : String}
  {task : Task} {found : Except ε (Option Match)} {depth : Nat}

theorem scanLines_cons_of_none {l : Line} (h : scanLine inc request chain file l = .ok none)
    (ls : List Line) : scanLines inc request chain file (l :: ls) =
      scanLines inc request chain file ls := by
  rw [scanLines_cons, h]

theorem scanLines_cons_of_ne_none {l : Line} (h : scanLine inc request chain file l = found)
    (hne : found ≠ .ok none) (ls : List Line) :
    scanLines inc request chain file (l :: ls) = found := by
  rw [scanLines_cons, h]
  split
  · exact absurd rfl hne
  · rfl

theorem scanLine_of_unresolved {l : Line} {directive : Directive} {path : String} {e : ε}
    (hcontent : l.content = .includes directive path)
    (herror : inc.resolve directive path = .error e) :
    scanLine inc request chain file l = .error e := by
  rw [scanLine, hcontent]
  simp only
  rw [herror]
  rfl

/-- **A scan ends with what the functions give.** -/
theorem Finishes.found_eq (h : Finishes inc.resolve request chain task found depth) :
    found = scan inc request chain task := by
  induction h with
  | noLines => exact (scanLines_nil ..).symm
  | noFiles => rfl
  | inert hincludes hrule _ ih =>
    exact ih.trans (scanLines_cons_of_none (scanLine_of_inert hincludes hrule) _).symm
  | rule hrule hcovers =>
    rw [scan, scanLines_cons, scanLine_of_rule hrule, if_pos hcovers]
  | unresolved hcontent herror =>
    rw [scan, scanLines_cons, scanLine_of_unresolved hcontent herror]
  | included hcontent hfs _ hne ih =>
    exact (scanLines_cons_of_ne_none ((scanLine_of_includes hcontent hfs).trans ih.symm) hne _).symm
  | includedNone hcontent hfs _ _ ihfiles ih =>
    exact ih.trans
      (scanLines_cons_of_none ((scanLine_of_includes hcontent hfs).trans ihfiles.symm) _).symm
  | passedOver hchain _ ih =>
    refine ih.trans ?_
    rw [scan, scan, scanFiles, if_pos hchain]
  | entered hchain _ hne ih =>
    rw [scan, scanFiles, if_neg (Bool.eq_false_iff.mp hchain),
      show scanLines inc request _ _ _ = _ from ih.symm]
    split
    · exact absurd rfl hne
    · rfl
  | enteredNone hchain _ _ ihlines ih =>
    rw [scan, scanFiles, if_neg (Bool.eq_false_iff.mp hchain),
      show scanLines inc request _ _ _ = _ from ihlines.symm]
    exact ih

/-! ## depth -/

def Task.Within (names : Finset String) : Task → Prop
  | .lines _ _ => True
  | .files fs => ∀ f ∈ fs, f.name ∈ names

/-- **No more files are inside one another than there are names off the chain.** Each file that is
entered takes its name off. -/
theorem Finishes.depth_le {resolve : Directive → String → Except ε (List PolicyFile)}
    {names : Finset String} (hresolve : ∀ directive path fs, resolve directive path = .ok fs →
      ∀ f ∈ fs, f.name ∈ names)
    (h : Finishes resolve request chain task found depth) (htask : task.Within names) :
    depth ≤ (names \ chain.toFinset).card := by
  have henter {chain : List String} {f : PolicyFile} {inside : Nat} (hname : f.name ∈ names)
      (hchain : chain.contains f.name = false)
      (hinside : inside ≤ (names \ (f.name :: chain).toFinset).card) :
      inside + 1 ≤ (names \ chain.toFinset).card := by
    have hoff : f.name ∈ names \ chain.toFinset := by
      simpa [hname] using hchain
    rw [List.toFinset_cons, Finset.sdiff_insert, Finset.card_erase_of_mem hoff] at hinside
    have hpos := Finset.card_pos.mpr ⟨_, hoff⟩
    omega
  induction h with
  | noLines => exact Nat.zero_le _
  | noFiles => exact Nat.zero_le _
  | inert _ _ _ ih => exact ih trivial
  | rule => exact Nat.zero_le _
  | unresolved => exact Nat.zero_le _
  | included _ hfs _ _ ih => exact ih (hresolve _ _ _ hfs)
  | includedNone _ hfs _ _ ihfiles ih => exact max_le (ihfiles (hresolve _ _ _ hfs)) (ih trivial)
  | passedOver _ _ ih => exact ih fun g hg => htask g (List.mem_cons_of_mem _ hg)
  | entered hchain _ _ ih => exact henter (htask _ List.mem_cons_self) hchain (ih trivial)
  | enteredNone hchain _ _ ihlines ih =>
    exact max_le (henter (htask _ List.mem_cons_self) hchain (ihlines trivial))
      (ih fun g hg => htask g (List.mem_cons_of_mem _ hg))

/-! ## ends -/

theorem exists_finishes_files {fs : List PolicyFile}
    (hlines : ∀ f ∈ fs, chain.contains f.name = false → ∃ depth, Finishes inc.resolve request
      (f.name :: chain) (.lines f.name f.lines)
      (scanLines inc request (f.name :: chain) f.name f.lines) depth) :
    ∃ depth, Finishes inc.resolve request chain (.files fs) (scanFiles inc request chain fs)
      depth := by
  induction fs with
  | nil => exact ⟨0, .noFiles⟩
  | cons f fs ih =>
    obtain ⟨depth, hfs⟩ := ih fun g hg => hlines g (List.mem_cons_of_mem f hg)
    rw [scanFiles]
    by_cases hchain : chain.contains f.name = true
    · rw [if_pos hchain]
      exact ⟨depth, .passedOver hchain hfs⟩
    · rw [if_neg hchain]
      rw [Bool.not_eq_true] at hchain
      obtain ⟨inside, hf⟩ := hlines f List.mem_cons_self hchain
      split
      · next hnone =>
        rw [hnone] at hf
        exact ⟨_, .enteredNone hchain hf hfs⟩
      · next hne => exact ⟨_, .entered hchain hf hne⟩

/-- **Lines are scanned to the end**, whatever their include lines lead to. -/
theorem exists_finishes_lines (inc : Includes ε) (request : Request) (chain : List String) :
    ∀ (file : String) (ls : List Line), ∃ depth, Finishes inc.resolve request chain
      (.lines file ls) (scanLines inc request chain file ls) depth := by
  -- the names off the chain become fewer with each file entered
  induction chain using chain_induction inc with
  | grow chain ih =>
    intro file ls
    induction ls with
    | nil =>
      rw [scanLines_nil]
      exact ⟨0, .noLines⟩
    | cons l ls ihls =>
      obtain ⟨depth, hls⟩ := ihls
      cases hcontent : l.content with
      | rule r =>
        cases hcovers : r.covers request with
        | true =>
          rw [scanLines_cons, scanLine_of_rule hcontent, if_pos hcovers]
          exact ⟨0, .rule hcontent hcovers⟩
        | false =>
          have hincludes : ∀ directive path, l.content ≠ .includes directive path := by
            rw [hcontent]
            intro directive path h
            cases h
          have hrule : ∀ s, l.content = .rule s → s.covers request = false := by
            rw [hcontent]
            rintro s ⟨⟩
            exact hcovers
          rw [scanLines_cons_of_none (scanLine_of_inert hincludes hrule)]
          exact ⟨depth, .inert hincludes hrule hls⟩
      | includes directive path =>
        cases hfs : inc.resolve directive path with
        | error e =>
          rw [scanLines_cons, scanLine_of_unresolved hcontent hfs]
          exact ⟨0, .unresolved hcontent hfs⟩
        | ok fs =>
          obtain ⟨inside, hfiles⟩ := exists_finishes_files fun f hf hchain =>
            ih f.name (inc.resolve_mem hfs f hf) hchain f.name f.lines
          rw [scanLines_cons, scanLine_of_includes hcontent hfs]
          split
          · next hnone =>
            rw [hnone] at hfiles
            exact ⟨_, .includedNone hcontent hfs hfiles hls⟩
          · next hne => exact ⟨_, .included hcontent hfs hfiles hne⟩
      | _ =>
        have hincludes : ∀ directive path, l.content ≠ .includes directive path := by
          rw [hcontent]
          intro directive path h
          cases h
        have hrule : ∀ r, l.content = .rule r → r.covers request = false := by
          rw [hcontent]
          rintro r ⟨⟩
        rw [scanLines_cons_of_none (scanLine_of_inert hincludes hrule)]
        exact ⟨depth, .inert hincludes hrule hls⟩

end Evaluation

/-! ## explanations -/

section

open Evaluation

variable {ε : Type} {inc : Includes ε} {request : Request} {files : List PolicyFile}

theorem exists_finishes_explain (inc : Includes ε) (request : Request) (files : List PolicyFile) :
    ∃ depth, Finishes inc.resolve request [] (.files files) (explain inc request files) depth := by
  rw [explain_eq_scanFiles]
  exact exists_finishes_files fun f _ _ =>
    exists_finishes_lines inc request [f.name] f.name f.lines

theorem finishes_explain_depth_le {names : Finset String} (hfiles : ∀ f ∈ files, f.name ∈ names)
    (hresolve : ∀ directive path fs, inc.resolve directive path = .ok fs →
      ∀ f ∈ fs, f.name ∈ names) {found : Except ε (Option Match)} {depth : Nat}
    (h : Finishes inc.resolve request [] (.files files) found depth) :
    found = explain inc request files ∧ depth ≤ names.card := by
  refine ⟨h.found_eq.trans (explain_eq_scanFiles ..).symm, ?_⟩
  have hdepth := h.depth_le hresolve hfiles
  rwa [List.toFinset_nil, Finset.sdiff_empty] at hdepth

/-- **Evaluation ends on every include graph.** Whatever files include themselves, one another or a
directory: if their names, and those of the files that are listed, are among finitely many, the scan
comes to an end, the deciding rule is what it ends with, and at no point are more files entered
inside one another than there are names. -/
theorem explain_finishes (inc : Includes ε) (request : Request) (files : List PolicyFile)
    (names : Finset String) (hfiles : ∀ f ∈ files, f.name ∈ names)
    (hresolve : ∀ directive path fs, inc.resolve directive path = .ok fs →
      ∀ f ∈ fs, f.name ∈ names) :
    (∃ depth ≤ names.card,
      Finishes inc.resolve request [] (.files files) (explain inc request files) depth) ∧
    ∀ found depth, Finishes inc.resolve request [] (.files files) found depth →
      found = explain inc request files ∧ depth ≤ names.card := by
  obtain ⟨depth, hfinishes⟩ := exists_finishes_explain inc request files
  exact ⟨⟨depth, (finishes_explain_depth_le hfiles hresolve hfinishes).2, hfinishes⟩,
    fun _ _ => finishes_explain_depth_le hfiles hresolve⟩

theorem explain_finishes_ring :
    (∀ f ∈ ringFiles, f.name ∈ ({"outer", "inner"} : Finset String)) ∧
    (∀ directive path fs,
      (Includes.ofFiles (ε := Fault) ringFiles).resolve directive path = .ok fs →
        ∀ f ∈ fs, f.name ∈ ({"outer", "inner"} : Finset String)) ∧
    ∃ depth ≤ 2, Finishes (Includes.ofFiles (ε := Fault) ringFiles).resolve gpgRequest []
      (.files ringFiles) (explain (Includes.ofFiles (ε := Fault) ringFiles) gpgRequest ringFiles)
      depth := by
  have hfiles : ∀ f ∈ ringFiles, f.name ∈ ({"outer", "inner"} : Finset String) := by
    decide +kernel
  have hresolve : ∀ directive path fs,
      (Includes.ofFiles (ε := Fault) ringFiles).resolve directive path = .ok fs →
        ∀ f ∈ fs, f.name ∈ ({"outer", "inner"} : Finset String) := by
    intro directive path fs hfs f hf
    obtain ⟨g, hg, hname⟩ := List.mem_map.mp
      ((Includes.ofFiles (ε := Fault) ringFiles).resolve_mem hfs f hf)
    rw [← hname]
    exact hfiles g hg
  exact ⟨hfiles, hresolve, (explain_finishes _ gpgRequest ringFiles _ hfiles hresolve).1⟩

/-- **So it is for the files of a store**, over any disk and any open files. -/
theorem Store.explain_finishes_loadable (s : Store) (d : Disk) (opened : List PolicyFile)
    (allowIncludes : Bool) (request : Request) (files : List PolicyFile) :
    ∃ depth ≤ (files.map PolicyFile.name ++ s.loadable d opened).toFinset.card,
      Finishes (s.includes d opened allowIncludes).resolve request [] (.files files)
        (explain (s.includes d opened allowIncludes) request files) depth := by
  obtain ⟨depth, hfinishes⟩ :=
    exists_finishes_explain (s.includes d opened allowIncludes) request files
  refine ⟨depth, (finishes_explain_depth_le (fun f hf => ?_) (fun _ _ fs hfs f hf => ?_)
    hfinishes).2, hfinishes⟩
  · exact List.mem_toFinset.mpr (List.mem_append_left _ (List.mem_map_of_mem hf))
  · exact List.mem_toFinset.mpr (List.mem_append_right _
      ((s.includes d opened allowIncludes).resolve_mem hfs f hf))

end

end QubePolicy
