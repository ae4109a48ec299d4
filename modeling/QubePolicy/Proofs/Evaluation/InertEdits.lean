import QubePolicy.Proofs.Evaluation.Deletion
import QubePolicy.Proofs.PolicyFile.Tracking
import Mathlib.Logic.Function.Basic

/-!
# Edits of lines that decide nothing

Inert lines decide nothing, so whatever is done to them in the files of a policy, the line that
decides stays the same one and is only found at another place.

* `Evaluation.First`          the first of some things that decides anything, and its place;
* `Evaluation.DecidesAt`      a rule at a line of one of the listed files is what decides;
* `First.tracks`              the first line of a file that decides is tracked;
* `InertEdits`, `tracks_of_inertEdits`   edits of listed files, one after another;
* `DecidesAt.tracksAll`, `TracksAll.explain_eq`   after them the same rule decides, at the place
                              where it is now, or the same included file;
* `explain_inertEdits`        so each request is decided as before.
-/

namespace QubePolicy

namespace Evaluation

variable {α ε : Type}

/-! ## the first one that decides -/

def firstFound (scan : α → Except ε (Option Match)) : List α → Except ε (Option Match)
  | [] => .ok none
  | x :: xs =>
    match scan x with
    | .ok none => firstFound scan xs
    | found => found

/-- The thing at an index decides something, and none before it does. -/
structure First (scan : α → Except ε (Option Match)) (xs : List α) (i : Nat) (x : α) : Prop where
  here : xs[i]? = some x
  found : scan x ≠ .ok none
  before : ∀ j < i, ∀ y, xs[j]? = some y → scan y = .ok none

variable {scan : α → Except ε (Option Match)} {xs : List α}

theorem First.firstFound_eq {i : Nat} {x : α} (h : First scan xs i x) :
    firstFound scan xs = scan x := by
  induction xs generalizing i with
  | nil => cases h.here
  | cons y ys ih =>
    rw [firstFound]
    cases i with
    | zero =>
      obtain rfl : y = x := Option.some.inj h.here
      split
      · next hnone => exact absurd hnone h.found
      · rfl
    | succ i =>
      rw [h.before 0 i.succ_pos y rfl]
      exact ih ⟨h.here, h.found, fun j hj z hz => h.before (j + 1) (Nat.succ_lt_succ hj) z hz⟩

theorem exists_first {x : α} (hx : x ∈ xs) (hfound : scan x ≠ .ok none) :
    ∃ i y, First scan xs i y := by
  induction xs with
  | nil => exact absurd hx List.not_mem_nil
  | cons z zs ih =>
    by_cases hz : scan z = .ok none
    · have hmem : x ∈ zs := by
        rcases List.mem_cons.mp hx with rfl | hmem
        · exact absurd hz hfound
        · exact hmem
      obtain ⟨i, y, hy⟩ := ih hmem
      refine ⟨i + 1, y, hy.here, hy.found, fun j hj w hw => ?_⟩
      cases j with
      | zero =>
        obtain rfl : z = w := Option.some.inj hw
        exact hz
      | succ j => exact hy.before j (Nat.lt_of_succ_lt_succ hj) w hw
    · exact ⟨0, z, rfl, hz, fun j hj => absurd hj j.not_lt_zero⟩

theorem firstFound_eq_none_iff :
    firstFound scan xs = .ok none ↔ ∀ x ∈ xs, scan x = .ok none := by
  constructor
  · intro h x hx
    by_contra hfound
    obtain ⟨i, y, hy⟩ := exists_first hx hfound
    exact hy.found (hy.firstFound_eq.symm.trans h)
  · intro h
    induction xs with
    | nil => rfl
    | cons x xs ih =>
      rw [firstFound, h x List.mem_cons_self]
      exact ih fun y hy => h y (List.mem_cons_of_mem x hy)

theorem exists_first_of_firstFound (h : firstFound scan xs ≠ .ok none) :
    ∃ i x, First scan xs i x := by
  by_contra hnone
  refine h (firstFound_eq_none_iff.mpr fun x hx => ?_)
  by_contra hfound
  exact hnone (exists_first hx hfound)

variable (inc : Includes ε) (request : Request)

theorem scanFile_eq_firstFound (f : PolicyFile) : scanFile inc request f =
    firstFound (scanLine inc request [f.name] f.name) f.lines := by
  rw [scanFile]
  induction f.lines with
  | nil => exact scanLines_nil ..
  | cons l ls ih =>
    refine (scanLines_cons ..).trans ?_
    rw [ih]
    rfl

theorem explain_eq_firstFound (files : List PolicyFile) :
    explain inc request files = firstFound (scanFile inc request) files := by
  induction files with
  | nil => rfl
  | cons f fs ih =>
    show (match scanFile inc request f with
      | .ok none => explain inc request fs
      | found => found) = _
    rw [ih]
    rfl

/-- The rule at an index of the listed file at another one is what decides: no file before that one
decides anything, nor does any line of it above the rule. -/
structure DecidesAt (files : List PolicyFile) (k : Nat) (f : PolicyFile) (i : Nat) (l : Line)
    (r : Rule) : Prop where
  file : First (scanFile inc request) files k f
  line : First (scanLine inc request [f.name] f.name) f.lines i l
  rule : l.content = .rule r

variable {inc request}

theorem DecidesAt.explain_eq {files : List PolicyFile} {k : Nat} {f : PolicyFile} {i : Nat}
    {l : Line} {r : Rule} (h : DecidesAt inc request files k f i l r) :
    explain inc request files = .ok (some ⟨r, i + 1, f.name⟩) := by
  have hnumber : l.number = i + 1 := by
    obtain ⟨raw, -, rfl⟩ := PolicyFile.line?_eq_some_iff.mp h.line.here
    rfl
  have hcovers : r.covers request = true := by
    by_contra hcovers
    exact h.line.found (by rw [scanLine_of_rule h.rule, if_neg hcovers])
  rw [explain_eq_firstFound, h.file.firstFound_eq, scanFile_eq_firstFound, h.line.firstFound_eq,
    scanLine_of_rule h.rule, if_pos hcovers, hnumber]

end Evaluation

/-! ## tracked scans -/

section

open Evaluation

variable {ε : Type} {inc : Includes ε} {request : Request} {chain : List String} {file : String}
  {l l' : Line} {track : Nat → Nat} {f g : PolicyFile}

theorem Evaluation.scanLine_of_isInert (h : l.content.isInert request = true) :
    scanLine inc request chain file l = .ok none := by
  apply scanLine_of_inert
  · intro directive path hcontent
    rw [hcontent] at h
    cases h
  · intro r hcontent
    rw [hcontent] at h
    exact Bool.not_eq_true' _ ▸ h

theorem Evaluation.scanLine_eq_none_congr (h : l'.content = l.content)
    (hnone : scanLine inc request chain file l = .ok none) :
    scanLine inc request chain file l' = .ok none := by
  cases hcontent : l.content with
  | rule r =>
    rw [scanLine_of_rule hcontent] at hnone
    rw [scanLine_of_rule (h.trans hcontent)]
    split at hnone
    · cases hnone
    · next hcovers => rw [if_neg hcovers]
  | includes directive path =>
    rw [scanLine, hcontent] at hnone
    rw [scanLine, h, hcontent]
    exact hnone
  | _ => rw [scanLine, h, hcontent]

theorem PolicyFile.liveAt_of_found {p : Nat} (hline : f.line? p = some l)
    (hfound : scanLine inc request chain file l ≠ .ok none) : f.LiveAt request p l.raw := by
  obtain ⟨raw, hraw, rfl⟩ := PolicyFile.line?_eq_some_iff.mp hline
  refine ⟨hraw, ?_⟩
  by_contra hinert
  exact hfound (scanLine_of_isInert (Bool.not_eq_false _ ▸ hinert))

theorem PolicyFile.Tracks.exists_source (htracks : Tracks request track f g) {q : Nat}
    (hline : g.line? q = some l) (hfound : scanLine inc request chain file l ≠ .ok none) :
    ∃ p k, f.LiveAt request p l.raw ∧ track p = q ∧ f.line? p = some k ∧ l.content = k.content := by
  obtain ⟨p, hlive, hq⟩ := htracks.live.mp (PolicyFile.liveAt_of_found hline hfound)
  obtain ⟨raw, hraw, rfl⟩ := PolicyFile.line?_eq_some_iff.mp hline
  refine ⟨p, _, hlive, hq, PolicyFile.line?_eq_some_iff.mpr ⟨raw, hlive.1, rfl⟩, ?_⟩
  show Content.read _ raw = Content.read _ raw
  rw [htracks.allowIncludes]

/-- **The first line that decides is tracked.** -/
theorem Evaluation.First.tracks (htracks : PolicyFile.Tracks request track f g) {p : Nat}
    (h : First (scanLine inc request [f.name] f.name) f.lines p l) :
    ∃ l', First (scanLine inc request [g.name] g.name) g.lines (track p) l' ∧
      l'.content = l.content ∧ l'.raw = l.raw := by
  have hlive := PolicyFile.liveAt_of_found h.here h.found
  have hlive' := htracks.live.mpr ⟨p, hlive, rfl⟩
  have hcontent : Content.read g.allowIncludes l.raw = l.content := by
    obtain ⟨raw, -, rfl⟩ := PolicyFile.line?_eq_some_iff.mp h.here
    exact congrArg (Content.read · raw) htracks.allowIncludes
  rw [htracks.name]
  refine ⟨.read g.allowIncludes (track p + 1) l.raw,
    ⟨PolicyFile.line?_eq_some_iff.mpr ⟨l.raw, hlive'.1, rfl⟩, ?_, ?_⟩, hcontent, rfl⟩
  · exact fun hnone => h.found (scanLine_eq_none_congr hcontent.symm hnone)
  · intro q hq m hm
    by_contra hfound
    obtain ⟨p', k, habove, rfl, hk, hmk⟩ := htracks.exists_source hm hfound
    have hlt : p' < p := htracks.lt_of_lt habove hlive hq
    exact hfound (scanLine_eq_none_congr hmk (h.before p' hlt k hk))

theorem PolicyFile.Tracks.scanFile_eq_none (htracks : Tracks request track f g)
    (hnone : scanFile inc request f = .ok none) : scanFile inc request g = .ok none := by
  rw [scanFile_eq_firstFound, firstFound_eq_none_iff] at hnone ⊢
  rw [htracks.name]
  intro l hl
  by_contra hfound
  obtain ⟨q, hline⟩ := List.mem_iff_getElem?.mp hl
  obtain ⟨p, k, -, -, hk, hlk⟩ := htracks.exists_source hline hfound
  exact hfound (scanLine_eq_none_congr hlk (hnone k (List.mem_of_getElem? hk)))

theorem PolicyFile.Tracks.scanFile_ne_none (htracks : Tracks request track f g)
    (hfound : scanFile inc request f ≠ .ok none) : scanFile inc request g ≠ .ok none := by
  rw [scanFile_eq_firstFound] at hfound
  obtain ⟨p, l, hfirst⟩ := exists_first_of_firstFound hfound
  obtain ⟨l', hfirst', -, -⟩ := hfirst.tracks htracks
  rw [scanFile_eq_firstFound, hfirst'.firstFound_eq]
  exact hfirst'.found

end

/-! ## edits of listed files -/

/-- Files that are listed, and what edits have made of them: the lines of the one at `k` that are
not inert have gone to the places that `track k` gives. -/
structure TracksAll (request : Request) (track : Nat → Nat → Nat) (files files' : List PolicyFile) :
    Prop where
  length : files'.length = files.length
  entry : ∀ {k : Nat} {f : PolicyFile}, files[k]? = some f →
    ∃ g, files'[k]? = some g ∧ PolicyFile.Tracks request (track k) f g

/-- Edits of inert lines of listed files, one after another, and where they take the lines of
each. -/
inductive InertEdits (request : Request) (files : List PolicyFile) :
    (Nat → Nat → Nat) → List PolicyFile → Prop
  | none : InertEdits request files (fun _ => id) files
  | more {track : Nat → Nat → Nat} {files' : List PolicyFile} {k : Nat} {f g : PolicyFile}
      {moves : Nat → Nat} : InertEdits request files track files' → files'[k]? = some f →
      PolicyFile.InertEdit request f moves g →
      InertEdits request files (Function.update track k (moves ∘ track k)) (files'.set k g)

/-- **Edits of inert lines keep the others**, however many they are. -/
theorem tracks_of_inertEdits {request : Request} {files files' : List PolicyFile}
    {track : Nat → Nat → Nat} (h : InertEdits request files track files') :
    TracksAll request track files files' := by
  induction h with
  | none => exact ⟨rfl, fun {k f} hf => ⟨f, hf, .refl request f⟩⟩
  | @more track files' k f g moves _ hf hedit ih =>
    refine ⟨by rw [List.length_set, ih.length], fun {k' f'} hf' => ?_⟩
    obtain ⟨g', hg', htracks⟩ := ih.entry hf'
    by_cases hk : k' = k
    · subst hk
      obtain rfl : g' = f := Option.some.inj (hg'.symm.trans hf)
      have hlt : k' < files'.length := (List.getElem?_eq_some_iff.mp hf).1
      rw [Function.update_self, List.getElem?_set_self hlt]
      exact ⟨g, rfl, htracks.trans (PolicyFile.tracks_of_inertEdit hedit)⟩
    · rw [Function.update_of_ne hk, List.getElem?_set_ne (Ne.symm hk)]
      exact ⟨g', hg', htracks⟩

section

open Evaluation

variable {ε : Type} {inc : Includes ε} {request : Request} {track : Nat → Nat → Nat}
  {files files' : List PolicyFile}

theorem TracksAll.exists_source (h : TracksAll request track files files') {k : Nat}
    {g : PolicyFile} (hg : files'[k]? = some g) :
    ∃ f, files[k]? = some f ∧ PolicyFile.Tracks request (track k) f g := by
  obtain ⟨hk, -⟩ := List.getElem?_eq_some_iff.mp hg
  obtain ⟨f, hf⟩ : ∃ f, files[k]? = some f := ⟨_, List.getElem?_eq_getElem (h.length ▸ hk)⟩
  obtain ⟨g', hg', htracks⟩ := h.entry hf
  obtain rfl : g = g' := Option.some.inj (hg.symm.trans hg')
  exact ⟨f, hf, htracks⟩

theorem Evaluation.First.tracksAll (h : TracksAll request track files files') {k : Nat}
    {f : PolicyFile} (hfirst : First (scanFile inc request) files k f) :
    ∃ g, First (scanFile inc request) files' k g ∧ PolicyFile.Tracks request (track k) f g := by
  obtain ⟨g, hg, htracks⟩ := h.entry hfirst.here
  refine ⟨g, ⟨hg, htracks.scanFile_ne_none hfirst.found, fun j hj g' hg' => ?_⟩, htracks⟩
  obtain ⟨f', hf', htracks'⟩ := h.exists_source hg'
  exact htracks'.scanFile_eq_none (hfirst.before j hj f' hf')

theorem TracksAll.explain_eq_none (h : TracksAll request track files files')
    (hnone : explain inc request files = .ok none) : explain inc request files' = .ok none := by
  rw [explain_eq_firstFound, firstFound_eq_none_iff] at hnone ⊢
  intro g hg
  obtain ⟨k, hk⟩ := List.mem_iff_getElem?.mp hg
  obtain ⟨f, hf, htracks⟩ := h.exists_source hk
  exact htracks.scanFile_eq_none (hnone f (List.mem_of_getElem? hf))

/-- **A rule of a listed file that decides goes on deciding**, at the place where it is now. -/
theorem Evaluation.DecidesAt.tracksAll (h : TracksAll request track files files') {k : Nat}
    {f : PolicyFile} {i : Nat} {l : Line} {r : Rule}
    (hdecides : DecidesAt inc request files k f i l r) :
    ∃ g l', DecidesAt inc request files' k g (track k i) l' r ∧ l'.raw = l.raw ∧
      g.name = f.name := by
  obtain ⟨g, hfile, htracks⟩ := hdecides.file.tracksAll h
  obtain ⟨l', hline, hcontent, hraw⟩ := hdecides.line.tracks htracks
  exact ⟨g, l', ⟨hfile, hline, hcontent.trans hdecides.rule⟩, hraw, htracks.name⟩

/-- What is found otherwise is in an included file, and stays as it is. -/
theorem TracksAll.explain_eq (h : TracksAll request track files files')
    (hnot : ¬ ∃ k f i l r, DecidesAt inc request files k f i l r) :
    explain inc request files' = explain inc request files := by
  by_cases hnone : explain inc request files = .ok none
  · rw [hnone, h.explain_eq_none hnone]
  · rw [explain_eq_firstFound] at hnone
    obtain ⟨k, f, hfile⟩ := exists_first_of_firstFound hnone
    have hfound := hfile.found
    rw [scanFile_eq_firstFound] at hfound
    obtain ⟨i, l, hline⟩ := exists_first_of_firstFound hfound
    obtain ⟨g, hfile', htracks⟩ := hfile.tracksAll h
    obtain ⟨l', hline', hcontent, -⟩ := hline.tracks htracks
    rw [explain_eq_firstFound, explain_eq_firstFound, hfile.firstFound_eq, hfile'.firstFound_eq,
      scanFile_eq_firstFound, scanFile_eq_firstFound, hline.firstFound_eq, hline'.firstFound_eq,
      htracks.name]
    cases hl : l.content with
    | rule r => exact absurd ⟨k, f, i, l, r, hfile, hline, hl⟩ hnot
    | _ => rw [scanLine, scanLine, hcontent, hl]

end

/-- **Edits of lines that decide nothing do not change decisions.** Let lines that are blank,
comments or malformed, or rules for other requests, be put into listed files, taken out and moved,
one after another in any number. Then the request is decided as before, by the same action or none,
or with the same failure of an include line, and it is found as before what decides it:

* a rule at a line of a listed file decides on, under the same file name and at the line where it
  is now;
* otherwise it is in an included file, and is found at the same line of that file. -/
theorem explain_inertEdits {ε : Type} (inc : Includes ε) (request : Request)
    {files files' : List PolicyFile} {track : Nat → Nat → Nat}
    (h : InertEdits request files track files') :
    (explain inc request files').map (Option.map Match.action) =
      (explain inc request files).map (Option.map Match.action) ∧
    (∀ k f i l r, Evaluation.DecidesAt inc request files k f i l r →
      explain inc request files = .ok (some ⟨r, i + 1, f.name⟩) ∧
      explain inc request files' = .ok (some ⟨r, track k i + 1, f.name⟩) ∧
      ∃ g l', Evaluation.DecidesAt inc request files' k g (track k i) l' r ∧ l'.raw = l.raw) ∧
    ((¬ ∃ k f i l r, Evaluation.DecidesAt inc request files k f i l r) →
      explain inc request files' = explain inc request files) := by
  have hall := tracks_of_inertEdits h
  have hown : ∀ k f i l r, Evaluation.DecidesAt inc request files k f i l r →
      explain inc request files = .ok (some ⟨r, i + 1, f.name⟩) ∧
      explain inc request files' = .ok (some ⟨r, track k i + 1, f.name⟩) ∧
      ∃ g l', Evaluation.DecidesAt inc request files' k g (track k i) l' r ∧ l'.raw = l.raw := by
    intro k f i l r hdecides
    obtain ⟨g, l', hdecides', hraw, hname⟩ := hdecides.tracksAll hall
    exact ⟨hdecides.explain_eq, hname ▸ hdecides'.explain_eq, g, l', hdecides', hraw⟩
  refine ⟨?_, hown, hall.explain_eq⟩
  by_cases hdecides : ∃ k f i l r, Evaluation.DecidesAt inc request files k f i l r
  · obtain ⟨k, f, i, l, r, hdecides⟩ := hdecides
    obtain ⟨hfound, hfound', -⟩ := hown k f i l r hdecides
    rw [hfound, hfound']
    rfl
  · rw [hall.explain_eq hdecides]

/-! ## a file with a rule for other requests -/

theorem decidesAt_shadowedFile : Evaluation.DecidesAt (Includes.ofFiles (ε := Fault) [])
    backupRequest [shadowedFile] 0 shadowedFile 3
    ⟨"* * work @anyvm deny", 4, .rule workDeny⟩ workDeny := by
  have hextra : (Includes.ofFiles (ε := Fault) []).resolve .file "extra" = .ok [] := rfl
  have hwork : workDeny.covers backupRequest = true := by decide
  have hline : Evaluation.First (Evaluation.scanLine (Includes.ofFiles (ε := Fault) [])
      backupRequest ["30-user"] "30-user") shadowedFile.lines 3
      ⟨"* * work @anyvm deny", 4, .rule workDeny⟩ := by
    rw [lines_shadowedFile]
    refine ⟨rfl, ?_, fun j hj l hl => ?_⟩
    · rw [Evaluation.scanLine_of_rule (r := workDeny) rfl, if_pos hwork]
      intro hnone
      cases hnone
    match j, hj, hl with
    | 0, _, rfl => exact Evaluation.scanLine_of_isInert (by decide)
    | 1, _, rfl => exact Evaluation.scanLine_of_includes rfl hextra
    | 2, _, rfl => exact Evaluation.scanLine_of_isInert (by decide)
  refine ⟨⟨rfl, ?_, fun j hj => absurd hj j.not_lt_zero⟩, hline, rfl⟩
  rw [Evaluation.scanFile_eq_firstFound]
  exact hline.firstFound_eq.symm ▸ hline.found

def shadowedWith (raws : List String) : PolicyFile := { shadowedFile with raws := raws }

/-- A comment comes in at the top, the rule above the include line goes, and the comment moves to
the end: the line that decides is the third one then. -/
theorem explain_inertEdits_shadowedFile : ∃ track,
    InertEdits backupRequest [shadowedFile] track [shadowedWith ["!include extra",
      "qubes.Gpg  *  work vault allow", "* * work @anyvm deny", "# note"]] ∧
    explain (Includes.ofFiles (ε := Fault) []) backupRequest [shadowedWith ["!include extra",
      "qubes.Gpg  *  work vault allow", "* * work @anyvm deny", "# note"]] =
        .ok (some ⟨workDeny, 3, "30-user"⟩) := by
  have hraws : shadowedFile.raws = ["qubes.Gpg * work vault allow", "!include extra",
      "qubes.Gpg  *  work vault allow", "* * work @anyvm deny"] := by
    rw [← PolicyFile.map_raw_lines, lines_shadowedFile]
    rfl
  obtain ⟨hnote, hgpg⟩ : (Content.read true "# note").isInert backupRequest = true ∧
      (Content.read true "qubes.Gpg * work vault allow").isInert backupRequest = true := by
    decide +kernel
  have hinsert : PolicyFile.InertEdit backupRequest shadowedFile (PolicyFile.insertedAt 0)
      (shadowedWith ["# note", "qubes.Gpg * work vault allow", "!include extra",
        "qubes.Gpg  *  work vault allow", "* * work @anyvm deny"]) :=
    .insertLine hnote (hraws ▸ PolicyFile.insertLine_whole (Nat.zero_le _) (by decide))
  have hdelete : PolicyFile.InertEdit backupRequest (shadowedWith ["# note",
      "qubes.Gpg * work vault allow", "!include extra", "qubes.Gpg  *  work vault allow",
      "* * work @anyvm deny"]) (PolicyFile.deletedAt 1) (shadowedWith ["# note", "!include extra",
        "qubes.Gpg  *  work vault allow", "* * work @anyvm deny"]) :=
    .deleteLine rfl hgpg (PolicyFile.deleteLine_whole (by decide))
  have hmove : PolicyFile.InertEdit backupRequest (shadowedWith ["# note", "!include extra",
      "qubes.Gpg  *  work vault allow", "* * work @anyvm deny"]) (PolicyFile.movedTo 0 3)
      (shadowedWith ["!include extra", "qubes.Gpg  *  work vault allow", "* * work @anyvm deny",
        "# note"]) :=
    .moveLine rfl hnote (PolicyFile.moveLine_whole (by decide) (by decide))
  have hnone : InertEdits backupRequest [shadowedFile] (fun _ => id) [shadowedFile] := .none
  have hedits := ((hnone.more (k := 0) rfl hinsert).more (k := 0) rfl hdelete).more (k := 0) rfl
    hmove
  obtain ⟨-, hown, -⟩ := explain_inertEdits (Includes.ofFiles (ε := Fault) []) backupRequest hedits
  obtain ⟨-, hfound, -⟩ := hown 0 _ 3 _ _ decidesAt_shadowedFile
  exact ⟨_, hedits, hfound⟩

end QubePolicy
