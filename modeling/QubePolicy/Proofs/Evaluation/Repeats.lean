import QubePolicy.Proofs.Evaluation.Flattening
import QubePolicy.Proofs.Evaluation.Visits
import Mathlib.Data.List.Nodup
import Mathlib.Tactic.Tauto

/-!
# Files met again

A file that was scanned to its end without a match decides nothing when it is met again, though
the chain may be a shorter one by then and hide less of what the file includes.

* `Includes.Coherent`      files of one name have the same lines;
* `QuietLine`, `Settled`   nothing in files of some names decides, and what they include is among
                           them or on the chain;
* `scanLines_of_quiet`     below a chain that hides at least as much, such files have no match;
* `Tracks`                 what holds of the visits of a scan and of the files it enters;
* `explain_eq_explainOnce` meeting a file again makes no difference.
-/

namespace QubePolicy

variable {ε : Type}

/-- Files of one name have the same lines, whether they are listed or behind an include line. -/
def Includes.Coherent (inc : Includes ε) (files : List PolicyFile) : Prop :=
  ∀ f g, (f ∈ files ∨ inc.Offers f) → (g ∈ files ∨ inc.Offers g) → f.name = g.name →
    f.lines = g.lines

theorem Includes.Coherent.exists_book {inc : Includes ε} {files : List PolicyFile}
    (h : inc.Coherent files) :
    ∃ book : String → List Line, ∀ f, (f ∈ files ∨ inc.Offers f) → f.lines = book f.name := by
  classical
  let book (name : String) : List Line :=
    if hname : ∃ f, (f ∈ files ∨ inc.Offers f) ∧ f.name = name then hname.choose.lines else []
  refine ⟨book, fun f hf => ?_⟩
  have hname : ∃ g, (g ∈ files ∨ inc.Offers g) ∧ g.name = f.name := ⟨f, hf, rfl⟩
  have hbook : book f.name = hname.choose.lines := dif_pos hname
  rw [hbook]
  exact h f _ hf hname.choose_spec.1 hname.choose_spec.2.symm

namespace Evaluation

variable {inc : Includes ε} {request : Request} {book : String → List Line}

/-! ## settled files -/

def QuietLine (inc : Includes ε) (request : Request) (known : List String) (l : Line) : Prop :=
  match l.content with
  | .rule r => r.covers request = false
  | .includes directive path =>
    ∃ fs, inc.resolve directive path = .ok fs ∧ ∀ f ∈ fs, f.name ∈ known
  | .blank | .comment _ | .malformed _ => True

theorem QuietLine.mono {known more : List String} (hsub : ∀ n ∈ known, n ∈ more) {l : Line}
    (h : QuietLine inc request known l) : QuietLine inc request more l := by
  unfold QuietLine at h ⊢
  cases hl : l.content with
  | rule r => rw [hl] at h; exact h
  | includes directive path =>
    rw [hl] at h
    obtain ⟨fs, hfs, hknown⟩ := h
    exact ⟨fs, hfs, fun f hf => hsub f.name (hknown f hf)⟩
  | blank => trivial
  | comment text => trivial
  | malformed findings => trivial

/-- The files of some names decide nothing by themselves, and include only each other and files on
the chain. -/
def Settled (inc : Includes ε) (request : Request) (book : String → List Line)
    (chain done : List String) : Prop :=
  ∀ n ∈ done, ∀ l ∈ book n, QuietLine inc request (done ++ chain) l

theorem settled_nil (chain : List String) : Settled inc request book chain [] :=
  fun _ hn => absurd hn List.not_mem_nil

/-- What is settled stays so below a longer chain. -/
theorem Settled.push {chain done : List String} (h : Settled inc request book chain done)
    (name : String) : Settled inc request book (name :: chain) done := by
  refine fun n hn l hl => (h n hn l hl).mono fun m hm => ?_
  rcases List.mem_append.mp hm with hm | hm
  · exact List.mem_append_left _ hm
  · exact List.mem_append_right _ (List.mem_cons_of_mem name hm)

/-- A file whose lines are quiet is settled when its scan ends. -/
theorem Settled.pop {chain done : List String} {name : String}
    (h : Settled inc request book (name :: chain) done)
    (hlines : ∀ l ∈ book name, QuietLine inc request (done ++ name :: chain) l) :
    Settled inc request book chain (done ++ [name]) := by
  have hsame : done ++ [name] ++ chain = done ++ name :: chain := List.append_cons .. |>.symm
  intro n hn l hl
  rw [hsame]
  rcases List.mem_append.mp hn with hn | hn
  · exact h n hn l hl
  · rw [List.mem_singleton.mp hn] at hl
    exact hlines l hl

theorem scanFiles_eq_none {chain : List String} {fs : List PolicyFile}
    (h : ∀ f ∈ fs, chain.contains f.name = false →
      scanLines inc request (f.name :: chain) f.name f.lines = .ok none) :
    scanFiles inc request chain fs = .ok none := by
  induction fs with
  | nil => rfl
  | cons f fs ih =>
    have ih' := ih fun g hg => h g (List.mem_cons_of_mem f hg)
    rw [scanFiles, ih']
    cases hchain : chain.contains f.name with
    | true => rfl
    | false =>
      rw [h f List.mem_cons_self hchain]
      rfl

theorem mem_visitsOfFiles {chain : List String} {fs : List PolicyFile} {v : Visit ε}
    (h : v ∈ visitsOfFiles inc request chain fs) :
    ∃ f ∈ fs, chain.contains f.name = false ∧
      (v ∈ visitsOfLines inc request (f.name :: chain) f.name f.lines ∨
        v = ⟨f.name, scanLines inc request (f.name :: chain) f.name f.lines⟩) := by
  induction fs with
  | nil => exact absurd h List.not_mem_nil
  | cons f fs ih =>
    rw [visitsOfFiles] at h
    split at h
    · obtain ⟨g, hg, hv⟩ := ih h
      exact ⟨g, List.mem_cons_of_mem f hg, hv⟩
    · next hchain =>
      have hchain' : chain.contains f.name = false := by simpa using hchain
      rcases List.mem_append.mp h with hv | hv
      · exact ⟨f, List.mem_cons_self, hchain', .inl hv⟩
      · rcases List.mem_cons.mp hv with hv | hv
        · exact ⟨f, List.mem_cons_self, hchain', .inr hv⟩
        · split at hv
          · obtain ⟨g, hg, hv⟩ := ih hv
            exact ⟨g, List.mem_cons_of_mem f hg, hv⟩
          · exact absurd hv List.not_mem_nil

theorem mem_visitsOfLines {chain : List String} {file : String} {ls : List Line} {v : Visit ε}
    (h : v ∈ visitsOfLines inc request chain file ls) :
    ∃ l ∈ ls, v ∈ visitsOfLine inc request chain l := by
  induction ls with
  | nil => rw [visitsOfLines_nil] at h; exact absurd h List.not_mem_nil
  | cons l ls ih =>
    rw [visitsOfLines_cons] at h
    rcases List.mem_append.mp h with hv | hv
    · exact ⟨l, List.mem_cons_self, hv⟩
    · split at hv
      · obtain ⟨k, hk, hv⟩ := ih hv
        exact ⟨k, List.mem_cons_of_mem l hk, hv⟩
      · exact absurd hv List.not_mem_nil

/-- **Settled files have no match below any chain that hides at least as much**, and only settled
files are entered from them. -/
theorem scanLines_of_quiet (hbook : ∀ f, inc.Offers f → f.lines = book f.name)
    {base done : List String} (hsettled : Settled inc request book base done)
    (chain : List String) : (∀ n ∈ base, n ∈ chain) → ∀ file ls,
      (∀ l ∈ ls, QuietLine inc request (done ++ base) l) →
      scanLines inc request chain file ls = .ok none ∧
        ∀ v ∈ visitsOfLines inc request chain file ls,
          v.found = .ok none ∧ v.name ∈ done ∧ v.name ∉ chain := by
  induction chain using chain_induction inc with
  | grow chain ih =>
    intro hbase file ls hls
    -- the files behind a line are hidden by the chain, or settled and not hidden
    have hfiles (directive path fs) (hfs : inc.resolve directive path = .ok fs)
        (hknown : ∀ f ∈ fs, f.name ∈ done ++ base) (f : PolicyFile) (hf : f ∈ fs)
        (hchain : chain.contains f.name = false) : f.name ∈ done ∧
          scanLines inc request (f.name :: chain) f.name f.lines = .ok none ∧
          ∀ v ∈ visitsOfLines inc request (f.name :: chain) f.name f.lines,
            v.found = .ok none ∧ v.name ∈ done ∧ v.name ∉ f.name :: chain := by
      have hdone : f.name ∈ done := by
        rcases List.mem_append.mp (hknown f hf) with h | h
        · exact h
        · simp [hbase f.name h] at hchain
      refine ⟨hdone, ih f.name (inc.resolve_mem hfs f hf) hchain
        (fun n hn => List.mem_cons_of_mem f.name (hbase n hn)) f.name f.lines ?_⟩
      rw [hbook f ⟨directive, path, fs, hfs, hf⟩]
      exact hsettled f.name hdone
    have hline (l) (hl : QuietLine inc request (done ++ base) l) :
        scanLine inc request chain file l = .ok none ∧
          ∀ v ∈ visitsOfLine inc request chain l,
            v.found = .ok none ∧ v.name ∈ done ∧ v.name ∉ chain := by
      unfold QuietLine at hl
      unfold scanLine visitsOfLine
      cases hcontent : l.content with
      | rule r =>
        rw [hcontent] at hl
        simp only [show r.covers request = false from hl]
        exact ⟨rfl, fun v hv => absurd hv List.not_mem_nil⟩
      | includes directive path =>
        rw [hcontent] at hl
        obtain ⟨fs, hfs, hknown⟩ := hl
        simp only [hfs]
        refine ⟨scanFiles_eq_none fun f hf hchain =>
          (hfiles directive path fs hfs hknown f hf hchain).2.1, fun v hv => ?_⟩
        obtain ⟨f, hf, hchain, hv⟩ := mem_visitsOfFiles hv
        obtain ⟨hdone, hscan, hvisits⟩ := hfiles directive path fs hfs hknown f hf hchain
        rcases hv with hv | rfl
        · obtain ⟨hfound, hname, hoff⟩ := hvisits v hv
          exact ⟨hfound, hname, fun hmem => hoff (List.mem_cons_of_mem f.name hmem)⟩
        · exact ⟨hscan, hdone, by simpa using hchain⟩
      | blank => exact ⟨rfl, fun v hv => absurd hv List.not_mem_nil⟩
      | comment text => exact ⟨rfl, fun v hv => absurd hv List.not_mem_nil⟩
      | malformed findings => exact ⟨rfl, fun v hv => absurd hv List.not_mem_nil⟩
    constructor
    · induction ls with
      | nil => exact scanLines_nil inc request chain file
      | cons l ls ihls =>
        rw [scanLines_cons, (hline l (hls l List.mem_cons_self)).1]
        exact ihls fun k hk => hls k (List.mem_cons_of_mem l hk)
    · intro v hv
      obtain ⟨l, hl, hv⟩ := mem_visitsOfLines hv
      exact (hline l (hls l hl)).2 v hv

/-! ## visits of a scan -/

/-- What a scan below a chain, after the files in `done`, makes of its visits and of the files it
enters for the first time. -/
structure Tracks (inc : Includes ε) (request : Request) (book : String → List Line)
    (chain done : List String) (found : Except ε (Option Match)) (vs : List (Visit ε))
    (entered : List String) : Prop where
  old : ∀ v ∈ vs, v.name ∈ done → v.found = .ok none
  off : ∀ v ∈ vs, v.name ∉ chain
  settles : vs.Pairwise Visit.Settles
  settled : found = .ok none → Settled inc request book chain (done ++ entered)
  known : found = .ok none → ∀ v ∈ vs, v.name ∈ done ++ entered

namespace Tracks

variable {chain done entered more : List String} {found : Except ε (Option Match)}
  {vs ws : List (Visit ε)}

theorem of_done (hsettled : Settled inc request book chain done)
    (h : ∀ v ∈ vs, v.found = .ok none ∧ v.name ∈ done ∧ v.name ∉ chain) :
    Tracks inc request book chain done found vs [] where
  old v hv _ := (h v hv).1
  off v hv := (h v hv).2.2
  settles := List.pairwise_of_forall_mem_list fun _ _ w hw _ _ => (h w hw).1
  settled _ := by rwa [List.append_nil]
  known _ v hv := by
    rw [List.append_nil]
    exact (h v hv).2.1

theorem nil (hsettled : Settled inc request book chain done) :
    Tracks inc request book chain done found [] [] :=
  of_done hsettled fun _ hv => absurd hv List.not_mem_nil

theorem decided (h : Tracks inc request book chain done found vs entered)
    (hfound : found ≠ .ok none) : Tracks inc request book chain done found vs more where
  old := h.old
  off := h.off
  settles := h.settles
  settled hnone := absurd hnone hfound
  known hnone := absurd hnone hfound

theorem append (h : Tracks inc request book chain done (.ok none) vs entered)
    (h' : Tracks inc request book chain (done ++ entered) found ws more) :
    Tracks inc request book chain done found (vs ++ ws) (entered ++ more) where
  old v hv hdone := by
    rcases List.mem_append.mp hv with hv | hv
    · exact h.old v hv hdone
    · exact h'.old v hv (List.mem_append_left _ hdone)
  off v hv := by
    rcases List.mem_append.mp hv with hv | hv
    · exact h.off v hv
    · exact h'.off v hv
  settles := by
    refine List.pairwise_append.mpr ⟨h.settles, h'.settles, fun v hv w hw hname _ => ?_⟩
    exact h'.old w hw (hname ▸ h.known rfl v hv)
  settled hfound := by
    rw [← List.append_assoc]
    exact h'.settled hfound
  known hfound v hv := by
    rw [← List.append_assoc]
    rcases List.mem_append.mp hv with hv | hv
    · exact List.mem_append_left _ (h.known rfl v hv)
    · exact h'.known hfound v hv

theorem visit {name : String} (hdone : name ∉ done) (hchain : name ∉ chain)
    (h : Tracks inc request book (name :: chain) done found vs entered)
    (hlines : found = .ok none →
      ∀ l ∈ book name, QuietLine inc request (done ++ entered ++ name :: chain) l) :
    Tracks inc request book chain done found (vs ++ [⟨name, found⟩]) (entered ++ [name]) where
  old v hv hold := by
    rcases List.mem_append.mp hv with hv | hv
    · exact h.old v hv hold
    · rw [List.mem_singleton.mp hv] at hold
      exact absurd hold hdone
  off v hv := by
    rcases List.mem_append.mp hv with hv | hv
    · exact fun hmem => h.off v hv (List.mem_cons_of_mem name hmem)
    · rw [List.mem_singleton.mp hv]
      exact hchain
  settles := by
    refine List.pairwise_append.mpr ⟨h.settles, List.pairwise_singleton _ _, ?_⟩
    intro v hv w hw hname _
    rw [List.mem_singleton.mp hw] at hname
    exact absurd (hname ▸ List.mem_cons_self) (h.off v hv)
  settled hfound := by
    rw [← List.append_assoc]
    exact (h.settled hfound).pop (hlines hfound)
  known hfound v hv := by
    rw [← List.append_assoc]
    rcases List.mem_append.mp hv with hv | hv
    · exact List.mem_append_left _ (h.known hfound v hv)
    · rw [List.mem_singleton.mp hv]
      exact List.mem_append_right _ (List.mem_singleton_self name)

end Tracks

/-! ## scanning each file once finds the same -/

/-- Below this chain and after settled files, scanning lines finds what scanning each file once
finds, and leaves the lines quiet if that is nothing. -/
def FindsOnce (inc : Includes ε) (request : Request) (book : String → List Line)
    (chain : List String) : Prop :=
  ∀ file ls done seen, Settled inc request book chain done →
    (∀ n, n ∈ seen ↔ n ∈ done ∨ n ∈ chain) →
    ∃ entered,
      onceLines inc request seen file ls = (scanLines inc request chain file ls, entered) ∧
      Tracks inc request book chain done (scanLines inc request chain file ls)
        (visitsOfLines inc request chain file ls) entered ∧
      (scanLines inc request chain file ls = .ok none →
        ∀ l ∈ ls, QuietLine inc request (done ++ entered ++ chain) l)

variable {chain done seen : List String}

theorem mem_seen_iff (hseen : ∀ n, n ∈ seen ↔ n ∈ done ∨ n ∈ chain) (entered : List String)
    (n : String) : n ∈ entered ++ seen ↔ n ∈ done ++ entered ∨ n ∈ chain := by
  rw [List.mem_append, List.mem_append, hseen]
  tauto

theorem findsOnce_file (hseen : ∀ n, n ∈ seen ↔ n ∈ done ∨ n ∈ chain)
    (hsettled : Settled inc request book chain done) {f : PolicyFile} (hf : f.lines = book f.name)
    (hbelow : FindsOnce inc request book (f.name :: chain)) (hnew : f.name ∉ seen) :
    ∃ entered,
      onceLines inc request (f.name :: seen) f.name f.lines =
        (scanLines inc request (f.name :: chain) f.name f.lines, entered) ∧
      Tracks inc request book chain done (scanLines inc request (f.name :: chain) f.name f.lines)
        (visitsOfLines inc request (f.name :: chain) f.name f.lines ++
          [⟨f.name, scanLines inc request (f.name :: chain) f.name f.lines⟩])
        (entered ++ [f.name]) := by
  have hseen' (n : String) : n ∈ f.name :: seen ↔ n ∈ done ∨ n ∈ f.name :: chain := by
    rw [List.mem_cons, List.mem_cons, hseen]
    tauto
  obtain ⟨entered, honce, htracks, hquiet⟩ :=
    hbelow f.name f.lines done (f.name :: seen) (hsettled.push f.name) hseen'
  rw [hseen, not_or] at hnew
  refine ⟨entered, honce, htracks.visit hnew.1 hnew.2 fun hfound l hl => ?_⟩
  exact hquiet hfound l (hf ▸ hl)

theorem findsOnce_files (hbook : ∀ f, inc.Offers f → f.lines = book f.name)
    {fs : List PolicyFile} (hfs : ∀ f ∈ fs, f.lines = book f.name)
    (hbelow : ∀ f ∈ fs, chain.contains f.name = false →
      FindsOnce inc request book (f.name :: chain))
    (hsettled : Settled inc request book chain done)
    (hseen : ∀ n, n ∈ seen ↔ n ∈ done ∨ n ∈ chain) :
    ∃ entered,
      onceFiles inc request seen fs = (scanFiles inc request chain fs, entered) ∧
      Tracks inc request book chain done (scanFiles inc request chain fs)
        (visitsOfFiles inc request chain fs) entered ∧
      (scanFiles inc request chain fs = .ok none →
        ∀ f ∈ fs, f.name ∈ done ++ entered ++ chain) := by
  induction fs generalizing done seen with
  | nil => exact ⟨[], rfl, .nil hsettled, fun _ f hf => absurd hf List.not_mem_nil⟩
  | cons f fs ih =>
    have hrest {done seen} := @ih done seen (fun g hg => hfs g (List.mem_cons_of_mem f hg))
      fun g hg => hbelow g (List.mem_cons_of_mem f hg)
    have hlines := hfs f List.mem_cons_self
    rw [onceFiles, scanFiles, visitsOfFiles]
    cases hchain : chain.contains f.name with
    | true =>
      have hmem : f.name ∈ chain := by simpa using hchain
      have hskip : seen.contains f.name = true := by simpa using (hseen _).mpr (.inr hmem)
      obtain ⟨entered, honce, htracks, hknown⟩ := hrest hsettled hseen
      rw [if_pos hskip]
      refine ⟨entered, honce, htracks, fun hfound => List.forall_mem_cons.mpr ⟨?_, hknown hfound⟩⟩
      exact List.mem_append_right _ hmem
    | false =>
      have hnone : f.name ∉ chain := by simpa using hchain
      have hfalse : ¬ (false = true) := Bool.false_ne_true
      simp only [if_neg hfalse]
      by_cases hdone : f.name ∈ done
      · have hskip : seen.contains f.name = true := by simpa using (hseen _).mpr (.inl hdone)
        obtain ⟨hscan, hvisits⟩ := scanLines_of_quiet hbook hsettled (f.name :: chain)
          (fun n hn => List.mem_cons_of_mem f.name hn) f.name f.lines
          (hlines ▸ hsettled f.name hdone)
        obtain ⟨entered, honce, htracks, hknown⟩ := hrest hsettled hseen
        have hagain : Tracks inc request book chain done (.ok none)
            (visitsOfLines inc request (f.name :: chain) f.name f.lines ++ [⟨f.name, .ok none⟩])
            [] := by
          refine .of_done hsettled fun v hv => ?_
          rcases List.mem_append.mp hv with hv | hv
          · obtain ⟨hfound, hname, hoff⟩ := hvisits v hv
            exact ⟨hfound, hname, fun hmem => hoff (List.mem_cons_of_mem f.name hmem)⟩
          · rw [List.mem_singleton.mp hv]
            exact ⟨rfl, hdone, hnone⟩
        rw [if_pos hskip, hscan]
        refine ⟨entered, honce, ?_, fun hfound => List.forall_mem_cons.mpr ⟨?_, hknown hfound⟩⟩
        · rw [List.append_cons]
          exact hagain.append (by rwa [List.append_nil])
        · exact List.mem_append_left _ (List.mem_append_left _ hdone)
      · have hnew : f.name ∉ seen := by
          rw [hseen, not_or]
          exact ⟨hdone, hnone⟩
        have henter : ¬ seen.contains f.name = true := by simpa using hnew
        obtain ⟨entered, honce, htracks⟩ := findsOnce_file hseen hsettled hlines
          (hbelow f List.mem_cons_self hchain) hnew
        rw [if_neg henter, honce]
        cases hscan : scanLines inc request (f.name :: chain) f.name f.lines with
        | error e =>
          rw [hscan] at htracks
          have hdecided : (Except.error e : Except ε (Option Match)) ≠ .ok none := by simp
          exact ⟨entered, rfl, htracks.decided hdecided, fun hnone => absurd hnone hdecided⟩
        | ok found =>
          rw [hscan] at htracks
          cases found with
          | some m =>
            have hdecided : (Except.ok (some m) : Except ε (Option Match)) ≠ .ok none := by simp
            exact ⟨entered, rfl, htracks.decided hdecided, fun hnone => absurd hnone hdecided⟩
          | none =>
            have hnow (n : String) : n ∈ entered ++ f.name :: seen ↔
                n ∈ done ++ (entered ++ [f.name]) ∨ n ∈ chain := by
              rw [List.append_cons]
              exact mem_seen_iff hseen (entered ++ [f.name]) n
            obtain ⟨more, hmore, htracks', hknown⟩ := hrest (htracks.settled rfl) hnow
            refine ⟨entered ++ f.name :: more, by simp only [hmore], ?_,
              fun hfound => List.forall_mem_cons.mpr ⟨?_, fun g hg => ?_⟩⟩
            · rw [List.append_cons entered, List.append_cons (visitsOfLines _ _ _ _ _)]
              exact htracks.append htracks'
            · simp
            · have := hknown hfound g hg
              simpa using this

theorem findsOnce_line (hbook : ∀ f, inc.Offers f → f.lines = book f.name)
    (hbelow : ∀ name ∈ inc.names, chain.contains name = false →
      FindsOnce inc request book (name :: chain))
    (hsettled : Settled inc request book chain done)
    (hseen : ∀ n, n ∈ seen ↔ n ∈ done ∨ n ∈ chain) (file : String) (l : Line) :
    ∃ entered,
      onceLine inc request seen file l = (scanLine inc request chain file l, entered) ∧
      Tracks inc request book chain done (scanLine inc request chain file l)
        (visitsOfLine inc request chain l) entered ∧
      (scanLine inc request chain file l = .ok none →
        QuietLine inc request (done ++ entered ++ chain) l) := by
  unfold onceLine scanLine visitsOfLine QuietLine
  cases l.content with
  | rule r =>
    refine ⟨[], rfl, .nil hsettled, fun hnone => ?_⟩
    cases hcovers : r.covers request with
    | true => simp [hcovers] at hnone
    | false => exact hcovers
  | includes directive path =>
    cases hfs : inc.resolve directive path with
    | error e =>
      simp only [hfs]
      exact ⟨[], rfl, .nil hsettled, fun hnone => by cases hnone⟩
    | ok fs =>
      simp only [hfs]
      have hoffers : ∀ f ∈ fs, f.lines = book f.name := fun f hf =>
        hbook f ⟨directive, path, fs, hfs, hf⟩
      obtain ⟨entered, honce, htracks, hknown⟩ := findsOnce_files hbook hoffers
        (fun f hf => hbelow f.name (inc.resolve_mem hfs f hf)) hsettled hseen
      exact ⟨entered, honce, htracks, fun hnone => ⟨fs, rfl, hknown hnone⟩⟩
  | blank => exact ⟨[], rfl, .nil hsettled, fun _ => trivial⟩
  | comment text => exact ⟨[], rfl, .nil hsettled, fun _ => trivial⟩
  | malformed findings => exact ⟨[], rfl, .nil hsettled, fun _ => trivial⟩

theorem findsOnce (hbook : ∀ f, inc.Offers f → f.lines = book f.name) (request : Request)
    (chain : List String) : FindsOnce inc request book chain := by
  induction chain using chain_induction inc with
  | grow chain ih =>
    intro file ls
    induction ls with
    | nil =>
      intro done seen hsettled hseen
      rw [onceLines_nil, scanLines_nil, visitsOfLines_nil]
      exact ⟨[], rfl, .nil hsettled, fun _ l hl => absurd hl List.not_mem_nil⟩
    | cons l ls ihls =>
      intro done seen hsettled hseen
      obtain ⟨entered, honce, htracks, hquiet⟩ :=
        findsOnce_line hbook ih hsettled hseen file l
      rw [onceLines_cons, scanLines_cons, visitsOfLines_cons, honce]
      cases hscan : scanLine inc request chain file l with
      | error e =>
        rw [hscan] at htracks
        refine ⟨entered, rfl, ?_, fun hnone => by cases hnone⟩
        rwa [List.append_nil]
      | ok found =>
        rw [hscan] at htracks hquiet
        cases found with
        | some m =>
          refine ⟨entered, rfl, ?_, fun hnone => by cases hnone⟩
          rwa [List.append_nil]
        | none =>
          obtain ⟨more, hmore, htracks', hquiet'⟩ :=
            ihls (done ++ entered) (entered ++ seen) (htracks.settled rfl)
              (mem_seen_iff hseen entered)
          refine ⟨entered ++ more, by simp only [hmore], htracks.append htracks', ?_⟩
          rw [← List.append_assoc]
          refine fun hnone => List.forall_mem_cons.mpr ⟨?_, hquiet' hnone⟩
          refine (hquiet rfl).mono fun n hn => ?_
          rw [List.mem_append, List.mem_append]
          rcases List.mem_append.mp hn with hn | hn
          · exact .inl (.inl hn)
          · exact .inr hn

/-- What is found is what the file entered last has found. -/
theorem scanFiles_eq_getLast? (inc : Includes ε) (request : Request) (chain : List String)
    (fs : List PolicyFile) : scanFiles inc request chain fs =
      ((visitsOfFiles inc request chain fs).getLast?.map Visit.found).getD (.ok none) := by
  induction fs with
  | nil => rfl
  | cons f fs ih =>
    rw [scanFiles, visitsOfFiles]
    split
    · exact ih
    · rw [List.getLast?_append, List.getLast?_cons, Option.some_or, ih]
      cases scanLines inc request (f.name :: chain) f.name f.lines with
      | error e => rfl
      | ok found =>
        cases found with
        | some m => rfl
        | none =>
          cases (visitsOfFiles inc request chain fs).getLast? with
          | none => rfl
          | some v => rfl

end Evaluation

/-! ## the theorem -/

/-- **A file met again is never decisive.** If files of one name have the same lines, then in the
course of one evaluation no file in which nothing was found gives anything when it is entered
again, and passing over every file that was met before leads to the same result. -/
theorem explain_eq_explainOnce {inc : Includes ε} {files : List PolicyFile}
    (hcoherent : inc.Coherent files) (request : Request) :
    (visits inc request files).Pairwise Visit.Settles ∧
    explain inc request files =
      ((visits inc request files).getLast?.map Visit.found).getD (.ok none) ∧
    explain inc request files = explainOnce inc request files := by
  obtain ⟨book, hbook⟩ := hcoherent.exists_book
  have hoffers : ∀ f, inc.Offers f → f.lines = book f.name := fun f hf => hbook f (.inr hf)
  have hseen (n : String) : n ∈ ([] : List String) ↔ n ∈ ([] : List String) ∨ n ∈ [] := by simp
  obtain ⟨entered, honce, htracks, -⟩ := Evaluation.findsOnce_files hoffers
    (fun f hf => hbook f (.inl hf))
    (fun f _ _ => Evaluation.findsOnce hoffers request [f.name]) (Evaluation.settled_nil []) hseen
  refine ⟨htracks.settles, ?_, ?_⟩
  · rw [Evaluation.explain_eq_scanFiles]
    exact Evaluation.scanFiles_eq_getLast? inc request [] files
  · rw [Evaluation.explain_eq_scanFiles, explainOnce, honce]

/-! ## two files that include each other, met twice -/

theorem Includes.coherent_ofFiles {files : List PolicyFile}
    (h : (files.map PolicyFile.name).Nodup) : (ofFiles (ε := ε) files).Coherent files := by
  have hmem (f : PolicyFile) (hf : f ∈ files ∨ (ofFiles (ε := ε) files).Offers f) : f ∈ files := by
    rcases hf with hf | ⟨directive, path, fs, hfs, hf⟩
    · exact hf
    · cases directive with
      | file =>
        cases hfs
        exact List.mem_of_find?_eq_some (Option.mem_toList.mp hf)
      | directory =>
        cases hfs
        exact (List.mem_filter.mp (List.mem_mergeSort.mp hf)).1
  intro f g hf hg hname
  rw [List.inj_on_of_nodup_map h (hmem f hf) (hmem g hg) hname]

def leftFile : PolicyFile := .ofText "left" true "!include right\n"

def rightFile : PolicyFile :=
  .ofText "right" true "!include left\nqubes.Gpg * work @anyvm ask\n"

/-- Below the left file the right one hides it, and the other way round. -/
def knotFile : PolicyFile :=
  .ofText "knot" true "!include left\n!include right\n* * @anyvm @anyvm deny\n"

def knotFiles : List PolicyFile := [knotFile, leftFile, rightFile]

theorem lines_leftFile : leftFile.lines = [⟨"!include right", 1, .includes .file "right"⟩] := by
  decide +kernel

theorem lines_rightFile : rightFile.lines =
    [⟨"!include left", 1, .includes .file "left"⟩,
      ⟨"qubes.Gpg * work @anyvm ask", 2,
        .rule ⟨.name "qubes.Gpg", .any, .literal "work", .anyVM, .grant .ask none []⟩⟩] := by
  decide +kernel

theorem lines_knotFile : knotFile.lines =
    [⟨"!include left", 1, .includes .file "left"⟩, ⟨"!include right", 2, .includes .file "right"⟩,
      ⟨"* * @anyvm @anyvm deny", 3, .rule ⟨.wildcard, .any, .anyVM, .anyVM, .deny⟩⟩] := by
  decide +kernel

def copyRequest : Request :=
  ⟨"qubes.Filecopy", "", ⟨"work", none, []⟩, .qube ⟨"vault", none, []⟩⟩

theorem visits_knotFiles :
    (Includes.ofFiles (ε := Fault) knotFiles).Coherent knotFiles ∧
    (visits (Includes.ofFiles (ε := Fault) knotFiles) copyRequest knotFiles).map Visit.name =
      ["right", "left", "left", "right", "knot"] ∧
    explain (Includes.ofFiles (ε := Fault) knotFiles) copyRequest knotFiles =
      explainOnce (Includes.ofFiles knotFiles) copyRequest knotFiles := by
  have hcoherent : (Includes.ofFiles (ε := Fault) knotFiles).Coherent knotFiles :=
    Includes.coherent_ofFiles (by decide +kernel)
  refine ⟨hcoherent, ?_, (explain_eq_explainOnce hcoherent copyRequest).2.2⟩
  have hleft : (Includes.ofFiles (ε := Fault) [knotFile, leftFile, rightFile]).resolve .file
      "left" = .ok [leftFile] := rfl
  have hright : (Includes.ofFiles (ε := Fault) [knotFile, leftFile, rightFile]).resolve .file
      "right" = .ok [rightFile] := rfl
  have hnames : knotFile.name = "knot" ∧ leftFile.name = "left" ∧ rightFile.name = "right" :=
    ⟨rfl, rfl, rfl⟩
  have hgpg : Rule.covers copyRequest
      ⟨.name "qubes.Gpg", .any, .literal "work", .anyVM, .grant .ask none []⟩ = false := by
    decide +kernel
  have hdeny : Rule.covers copyRequest ⟨.wildcard, .any, .anyVM, .anyVM, .deny⟩ = true := by
    decide +kernel
  simp [visits, knotFiles, Evaluation.visitsOfFiles, Evaluation.visitsOfLines_cons,
    Evaluation.visitsOfLines_nil, Evaluation.visitsOfLine, Evaluation.scanLines_cons,
    Evaluation.scanLines_nil, Evaluation.scanLine, Evaluation.scanFiles, lines_knotFile,
    lines_leftFile, lines_rightFile, hleft, hright, hnames, hgpg, hdeny, Except.bind]

end QubePolicy
