import QubePolicy.Evaluation
import Mathlib.Data.List.Forall2

/-!
# Scanning, one line and one file at a time

`scanLines` and `scanIncluded` carry the proofs that make them end.  Their equations here do not:

* `scanLine`          the first match in what one line stands for;
* `scanFiles`         the first match in files, those on the chain passed over;
* `scanLines_cons`, `scanIncluded_eq`, `explain_eq_scanFiles`   scanning in terms of the two;
* `chain_induction`   what holds of a chain if it holds of the longer ones holds of every chain;
* `PolicyFile.Alike`, `AnswersAlike`   files, and answers to include lines, up to blank lines;
* `explain_alike`     only the answers to include lines matter, and no blank lines;
* `explain_eq_find?`  the first file that decides alone is the first one that decides.
-/

namespace QubePolicy

/-- A file of the same name that differs in blank lines only. -/
structure PolicyFile.Alike (f g : PolicyFile) : Prop where
  name : g.name = f.name
  lines : g.lines.filter (·.content != .blank) = f.lines.filter (·.content != .blank)

theorem PolicyFile.Alike.refl (f : PolicyFile) : f.Alike f := ⟨rfl, rfl⟩

namespace Evaluation

variable {ε : Type} (inc : Includes ε) (request : Request)

/-! ## chains -/

/-- Chains grow by names off the chain only, and there are finitely many of those. -/
theorem chain_induction {motive : List String → Prop}
    (grow : ∀ chain, (∀ name ∈ inc.names, chain.contains name = false → motive (name :: chain)) →
      motive chain) (chain : List String) : motive chain := by
  induction hroom : room inc.names chain using Nat.strongRecOn generalizing chain with
  | ind n ih =>
    refine grow chain fun name hname hchain => ih _ ?_ (name :: chain) rfl
    rw [← hroom]
    exact room_cons_lt hname hchain

/-! ## equations -/

def scanFiles (chain : List String) : List PolicyFile → Except ε (Option Match)
  | [] => .ok none
  | f :: fs =>
    if chain.contains f.name then scanFiles chain fs
    else
      match scanLines inc request (f.name :: chain) f.name f.lines with
      | .ok none => scanFiles chain fs
      | found => found

def scanLine (chain : List String) (file : String) (l : Line) : Except ε (Option Match) :=
  match l.content with
  | .rule r => .ok (if r.covers request then some ⟨r, l.number, file⟩ else none)
  | .includes directive path => (inc.resolve directive path).bind (scanFiles inc request chain)
  | .blank | .comment _ | .malformed _ => .ok none

variable {inc request} in
theorem scanLine_of_rule {chain : List String} {file : String} {l : Line} {r : Rule}
    (h : l.content = .rule r) : scanLine inc request chain file l =
      .ok (if r.covers request then some ⟨r, l.number, file⟩ else none) := by
  rw [scanLine, h]

variable {inc request} in
theorem scanLine_of_includes {chain : List String} {file : String} {l : Line}
    {directive : Directive} {path : String} {fs : List PolicyFile}
    (h : l.content = .includes directive path) (hfs : inc.resolve directive path = .ok fs) :
    scanLine inc request chain file l = scanFiles inc request chain fs := by
  rw [scanLine, h]
  simp only
  rw [hfs]
  rfl

variable {inc request} in
theorem scanLine_of_inert {chain : List String} {file : String} {l : Line}
    (hincludes : ∀ directive path, l.content ≠ .includes directive path)
    (hrule : ∀ r, l.content = .rule r → r.covers request = false) :
    scanLine inc request chain file l = .ok none := by
  unfold scanLine
  cases hcontent : l.content with
  | rule r => simp [hrule r hcontent]
  | includes directive path => exact absurd hcontent (hincludes directive path)
  | _ => rfl

theorem scanIncluded_eq (chain : List String) (fs : List PolicyFile)
    (h : ∀ f ∈ fs, f.name ∈ inc.names) :
    scanIncluded inc request chain fs h = scanFiles inc request chain fs := by
  induction fs with
  | nil => rw [scanIncluded, scanFiles]
  | cons f fs ih =>
    rw [scanIncluded, scanFiles]
    by_cases hchain : chain.contains f.name
    · rw [dif_pos hchain, if_pos hchain]
      exact ih _
    · rw [dif_neg hchain, if_neg hchain]
      cases scanLines inc request (f.name :: chain) f.name f.lines with
      | error e => rfl
      | ok found =>
        cases found with
        | none => exact ih _
        | some m => rfl

theorem scanLines_nil (chain : List String) (file : String) :
    scanLines inc request chain file [] = .ok none := by
  rw [scanLines]

theorem scanLines_cons (chain : List String) (file : String) (l : Line) (ls : List Line) :
    scanLines inc request chain file (l :: ls) =
      match scanLine inc request chain file l with
      | .ok none => scanLines inc request chain file ls
      | found => found := by
  rw [scanLines, scanLine]
  cases l.content with
  | rule r => by_cases h : r.covers request <;> simp [h]
  | includes directive path =>
    simp only
    split
    · next e h => rw [h]; rfl
    · next fs h =>
      rw [scanIncluded_eq, h]
      rfl
  | blank => rfl
  | comment text => rfl
  | malformed findings => rfl

variable {inc request} in
theorem scanLines_cons_of_covers {chain : List String} {file : String} {l : Line} {r : Rule}
    (h : l.content = .rule r) (hcovers : r.covers request = true) (ls : List Line) :
    scanLines inc request chain file (l :: ls) = .ok (some ⟨r, l.number, file⟩) := by
  rw [scanLines_cons, scanLine_of_rule h, if_pos hcovers]

theorem explain_eq_scanFiles (files : List PolicyFile) :
    explain inc request files = scanFiles inc request [] files := by
  induction files with
  | nil => rfl
  | cons f fs ih =>
    have hchain : ([] : List String).contains f.name = false := rfl
    rw [explain, scanFiles, scanFile, hchain, ih]
    rfl

/-! ## alike answers -/

/-- Both answers to an include line are the same fault, or files that are alike. -/
inductive AnswersAlike : Except ε (List PolicyFile) → Except ε (List PolicyFile) → Prop where
  | fails (e : ε) : AnswersAlike (.error e) (.error e)
  | files {fs fs' : List PolicyFile} : List.Forall₂ PolicyFile.Alike fs fs' →
      AnswersAlike (.ok fs) (.ok fs')

theorem AnswersAlike.refl : ∀ answer : Except ε (List PolicyFile), AnswersAlike answer answer
  | .error e => .fails e
  | .ok _ => .files (List.forall₂_same.mpr fun f _ => .refl f)

theorem scanLines_filter (chain : List String) (file : String) (ls : List Line) :
    scanLines inc request chain file (ls.filter (·.content != .blank)) =
      scanLines inc request chain file ls := by
  induction ls with
  | nil => rfl
  | cons l ls ih =>
    by_cases hblank : l.content = .blank
    · have hline : scanLine inc request chain file l = .ok none := by rw [scanLine, hblank]
      rw [List.filter_cons_of_neg (by simp [hblank]), scanLines_cons, hline, ih]
    · rw [List.filter_cons_of_pos (by simp [hblank]), scanLines_cons, scanLines_cons, ih]

theorem scanLines_of_alike {f g : PolicyFile} (h : f.Alike g) (chain : List String)
    (file : String) : scanLines inc request chain file g.lines =
      scanLines inc request chain file f.lines := by
  rw [← scanLines_filter, h.lines, scanLines_filter]

variable {inc} {inc' : Includes ε}

theorem scanLines_congr
    (h : ∀ directive path, AnswersAlike (inc.resolve directive path) (inc'.resolve directive path))
    (chain : List String) : ∀ (file : String) (ls : List Line),
      scanLines inc' request chain file ls = scanLines inc request chain file ls := by
  induction chain using chain_induction inc with
  | grow chain ih =>
    have hfiles : ∀ fs fs' : List PolicyFile, List.Forall₂ PolicyFile.Alike fs fs' →
        (∀ f ∈ fs, f.name ∈ inc.names) →
          scanFiles inc' request chain fs' = scanFiles inc request chain fs := by
      intro fs fs' halike hfs
      induction halike with
      | nil => rfl
      | @cons f f' fs fs' hf _ ihfs =>
        rw [scanFiles, scanFiles, ihfs fun g hg => hfs g (List.mem_cons_of_mem f hg), hf.name]
        split
        · rfl
        · next hchain =>
          rw [ih f.name (hfs f List.mem_cons_self) (Bool.eq_false_iff.mpr hchain),
            scanLines_of_alike inc request hf]
    have hline (file : String) (l : Line) :
        scanLine inc' request chain file l = scanLine inc request chain file l := by
      unfold scanLine
      cases l.content with
      | includes directive path =>
        simp only
        have hanswer := h directive path
        have hmem {fs : List PolicyFile} (hfs : inc.resolve directive path = .ok fs) :=
          inc.resolve_mem hfs
        generalize inc.resolve directive path = answer at hanswer hmem
        generalize inc'.resolve directive path = answer' at hanswer
        cases hanswer with
        | fails e => rfl
        | files halike => exact hfiles _ _ halike (hmem rfl)
      | _ => rfl
    intro file ls
    induction ls with
    | nil => rw [scanLines_nil, scanLines_nil]
    | cons l ls ihls => rw [scanLines_cons, scanLines_cons, hline, ihls]

/-- **Only the answers to include lines matter**, and no blank lines. -/
theorem explain_alike
    (h : ∀ directive path, AnswersAlike (inc.resolve directive path) (inc'.resolve directive path))
    {files files' : List PolicyFile} (hfiles : List.Forall₂ PolicyFile.Alike files files') :
    explain inc' request files' = explain inc request files := by
  induction hfiles with
  | nil => rfl
  | cons hf _ ih =>
    rw [explain, explain, scanFile, scanFile, hf.name, scanLines_congr request h,
      scanLines_of_alike inc request hf, ih]

theorem explain_congr
    (h : ∀ directive path, inc'.resolve directive path = inc.resolve directive path)
    (files : List PolicyFile) : explain inc' request files = explain inc request files :=
  explain_alike request (fun directive path => h directive path ▸ .refl _)
    (List.forall₂_same.mpr fun f _ => .refl f)

/-! ## the first file that decides -/

def decides : Except ε (Option Match) → Bool
  | .ok none => false
  | _ => true

theorem explain_eq_find? (file : String → PolicyFile) (names : List String) :
    explain inc request (names.map file) =
      match names.find? fun name => decides (scanFile inc request (file name)) with
      | some name => scanFile inc request (file name)
      | none => .ok none := by
  induction names with
  | nil => rfl
  | cons name names ih =>
    rw [List.map_cons, explain, ih]
    cases hscan : scanFile inc request (file name) with
    | error e => simp [hscan, decides]
    | ok found =>
      cases found with
      | none => simp [hscan, decides]
      | some m => simp [hscan, decides]

end Evaluation

end QubePolicy
