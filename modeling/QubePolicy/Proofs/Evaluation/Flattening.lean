import QubePolicy.Fault
import QubePolicy.Proofs.Evaluation.Scan

/-!
# The rules of files in one list

Which rule decides a request is a matter of one list of rules that knows nothing of the request.

* `flatLines`, `flatFiles`   the rules of lines and of files, those behind include lines in the
                             place of the line; files on the chain have none;
* `flatten`                  the rules of files that nothing includes;
* `Includes.NeverFails`      every include line is answered with some files;
* `Match.StandsIn`           a rule is one of the rules of a file;
* `explain_eq_find?_flatten` the deciding rule is the first one of the list that covers the request.
-/

namespace QubePolicy

variable {ε : Type}

/-! ## include lines -/

namespace Includes

def NeverFails (inc : Includes ε) : Prop :=
  ∀ directive path, ∃ fs, inc.resolve directive path = .ok fs

/-- Some include line stands for the file, with others perhaps. -/
def Offers (inc : Includes ε) (f : PolicyFile) : Prop :=
  ∃ directive path fs, inc.resolve directive path = .ok fs ∧ f ∈ fs

theorem neverFails_ofFiles (files : List PolicyFile) : (ofFiles (ε := ε) files).NeverFails := by
  intro directive path
  cases directive with
  | file => exact ⟨_, rfl⟩
  | directory => exact ⟨_, rfl⟩

end Includes

/-! ## the list -/

namespace Evaluation

/-- The rules of lines of the file with the given name, which is on the chain. -/
def flatLines (inc : Includes ε) (chain : List String) (file : String) : List Line → List Match
  | [] => []
  | l :: ls =>
    (match l.content with
      | .rule r => [⟨r, l.number, file⟩]
      | .includes directive path =>
        match _h : inc.resolve directive path with
        | .ok fs =>
          fs.attach.flatMap fun f =>
            if _hchain : chain.contains f.1.name then []
            else flatLines inc (f.1.name :: chain) f.1.name f.1.lines
        | .error _ => []
      | .blank | .comment _ | .malformed _ => []) ++
    flatLines inc chain file ls
  termination_by ls => (room inc.names chain, ls.length)
  decreasing_by
  · have := room_cons_lt (inc.resolve_mem _h f.1 f.2) (by simpa using _hchain)
    simp_wf; simp [Prod.lex_def]; omega
  · simp_wf; simp [Prod.lex_def]

def flatFiles (inc : Includes ε) (chain : List String) (fs : List PolicyFile) : List Match :=
  fs.flatMap fun f =>
    if chain.contains f.name then [] else flatLines inc (f.name :: chain) f.name f.lines

def flatLine (inc : Includes ε) (chain : List String) (file : String) (l : Line) : List Match :=
  match l.content with
  | .rule r => [⟨r, l.number, file⟩]
  | .includes directive path =>
    match inc.resolve directive path with
    | .ok fs => flatFiles inc chain fs
    | .error _ => []
  | .blank | .comment _ | .malformed _ => []

variable (inc : Includes ε) (chain : List String) (file : String)

theorem flatLines_cons (l : Line) (ls : List Line) : flatLines inc chain file (l :: ls) =
    flatLine inc chain file l ++ flatLines inc chain file ls := by
  rw [flatLines, flatLine]
  congr 1
  cases l.content with
  | includes directive path =>
    simp only
    split
    · next fs h =>
      rw [h]
      exact (List.flatMap_subtype fun f hf => rfl).trans (by rw [List.unattach_attach]; rfl)
    · next e h => rw [h]
  | rule r => rfl
  | blank => rfl
  | comment text => rfl
  | malformed findings => rfl

theorem flatLines_eq_flatMap (ls : List Line) :
    flatLines inc chain file ls = ls.flatMap (flatLine inc chain file) := by
  induction ls with
  | nil => rw [flatLines, List.flatMap_nil]
  | cons l ls ih => rw [flatLines_cons, ih, List.flatMap_cons]

theorem flatFiles_cons (f : PolicyFile) (fs : List PolicyFile) : flatFiles inc chain (f :: fs) =
    (if chain.contains f.name then [] else flatLines inc (f.name :: chain) f.name f.lines) ++
      flatFiles inc chain fs :=
  List.flatMap_cons

end Evaluation

/-- The rules of files that nothing includes. -/
def flatten (inc : Includes ε) (files : List PolicyFile) : List Match :=
  Evaluation.flatFiles inc [] files

/-! ## where the rules stand -/

def Match.StandsIn (m : Match) (f : PolicyFile) : Prop :=
  m.file = f.name ∧ (m.line, m.rule) ∈ f.rules

theorem Match.standsIn_of_mem_lines {f : PolicyFile} {l : Line} (hl : l ∈ f.lines) {r : Rule}
    (hr : l.content = .rule r) : Match.StandsIn ⟨r, l.number, f.name⟩ f := by
  refine ⟨rfl, List.mem_filterMap.mpr ⟨l, hl, ?_⟩⟩
  rw [hr]

namespace Evaluation

variable {inc : Includes ε}

theorem mem_flatFiles {chain : List String} {fs : List PolicyFile} {m : Match}
    (h : m ∈ flatFiles inc chain fs) : ∃ f ∈ fs, chain.contains f.name = false ∧
      m ∈ flatLines inc (f.name :: chain) f.name f.lines := by
  obtain ⟨f, hf, hm⟩ := List.mem_flatMap.mp h
  cases hchain : chain.contains f.name with
  | true => rw [hchain] at hm; exact absurd hm List.not_mem_nil
  | false => rw [hchain] at hm; exact ⟨f, hf, hchain, hm⟩

theorem standsIn_of_mem_flatLines (chain : List String) :
    ∀ f : PolicyFile, ∀ m ∈ flatLines inc chain f.name f.lines,
      m.StandsIn f ∨ ∃ g, inc.Offers g ∧ m.StandsIn g := by
  induction chain using chain_induction inc with
  | grow chain ih =>
    intro f m hm
    rw [flatLines_eq_flatMap] at hm
    obtain ⟨l, hl, hm⟩ := List.mem_flatMap.mp hm
    unfold flatLine at hm
    split at hm
    · next r hr =>
      rw [List.mem_singleton.mp hm]
      exact .inl (Match.standsIn_of_mem_lines hl hr)
    · next directive path _ =>
      split at hm
      · next fs hfs =>
        obtain ⟨g, hg, hchain, hm⟩ := mem_flatFiles hm
        have hoffers : inc.Offers g := ⟨directive, path, fs, hfs, hg⟩
        rcases ih g.name (inc.resolve_mem hfs g hg) hchain g m hm with hm | hm
        · exact .inr ⟨g, hoffers, hm⟩
        · exact .inr hm
      · exact absurd hm List.not_mem_nil
    · exact absurd hm List.not_mem_nil
    · exact absurd hm List.not_mem_nil
    · exact absurd hm List.not_mem_nil

theorem standsIn_of_mem_flatten {files : List PolicyFile} {m : Match}
    (h : m ∈ flatten inc files) : ∃ f, (f ∈ files ∨ inc.Offers f) ∧ m.StandsIn f := by
  obtain ⟨f, hf, _, hm⟩ := mem_flatFiles h
  rcases standsIn_of_mem_flatLines [f.name] f m hm with hm | ⟨g, hg, hm⟩
  · exact ⟨f, .inl hf, hm⟩
  · exact ⟨g, .inr hg, hm⟩

/-! ## scanning finds the first rule of the list -/

def firstCovering (request : Request) (ms : List Match) : Option Match :=
  ms.find? fun m => m.rule.covers request

theorem firstCovering_append (request : Request) (ms ns : List Match) :
    firstCovering request (ms ++ ns) =
      (firstCovering request ms).or (firstCovering request ns) :=
  List.find?_append

/-- Below this chain, scanning lines finds the first rule of their list. -/
def FindsFirst (inc : Includes ε) (request : Request) (chain : List String) : Prop :=
  ∀ file ls, scanLines inc request chain file ls =
    .ok (firstCovering request (flatLines inc chain file ls))

variable {request : Request} {chain : List String}

theorem scanFiles_eq_firstCovering {fs : List PolicyFile}
    (hbelow : ∀ f ∈ fs, chain.contains f.name = false → FindsFirst inc request (f.name :: chain)) :
    scanFiles inc request chain fs = .ok (firstCovering request (flatFiles inc chain fs)) := by
  induction fs with
  | nil => rfl
  | cons f fs ih =>
    have ih' := ih fun g hg => hbelow g (List.mem_cons_of_mem f hg)
    rw [scanFiles, flatFiles_cons, firstCovering_append, ih']
    cases hchain : chain.contains f.name with
    | true => rfl
    | false =>
      have hf := hbelow f List.mem_cons_self hchain f.name f.lines
      simp only [Bool.false_eq_true, if_false, hf]
      cases firstCovering request (flatLines inc (f.name :: chain) f.name f.lines) with
      | none => rfl
      | some m => rfl

theorem scanLine_eq_firstCovering (hinc : inc.NeverFails)
    (hbelow : ∀ name ∈ inc.names, chain.contains name = false →
      FindsFirst inc request (name :: chain)) (file : String) (l : Line) :
    scanLine inc request chain file l =
      .ok (firstCovering request (flatLine inc chain file l)) := by
  unfold scanLine flatLine
  cases l.content with
  | rule r =>
    by_cases h : r.covers request
    · simp only [h, if_true, firstCovering, List.find?_cons]
    · simp only [h, firstCovering, List.find?_cons, List.find?_nil]
      rfl
  | includes directive path =>
    obtain ⟨fs, hfs⟩ := hinc directive path
    simp only [hfs]
    exact scanFiles_eq_firstCovering fun f hf => hbelow f.name (inc.resolve_mem hfs f hf)
  | blank => rfl
  | comment text => rfl
  | malformed findings => rfl

theorem findsFirst (hinc : inc.NeverFails) (request : Request) (chain : List String) :
    FindsFirst inc request chain := by
  induction chain using chain_induction inc with
  | grow chain ih =>
    intro file ls
    induction ls with
    | nil => rw [scanLines_nil, flatLines]; rfl
    | cons l ls ihls =>
      rw [scanLines_cons, scanLine_eq_firstCovering hinc ih, ihls, flatLines_cons,
        firstCovering_append]
      cases firstCovering request (flatLine inc chain file l) with
      | none => rfl
      | some m => rfl

end Evaluation

/-- **The deciding rule is the first one of the list that covers the request**, and none if no rule
of the list does; it stands in one of the files, or in one behind an include line. -/
theorem explain_eq_find?_flatten {inc : Includes ε} (hinc : inc.NeverFails) (request : Request)
    (files : List PolicyFile) :
    explain inc request files = .ok ((flatten inc files).find? fun m => m.rule.covers request) ∧
    (explain inc request files = .ok none ↔
      ∀ m ∈ flatten inc files, m.rule.covers request = false) ∧
    ∀ m, explain inc request files = .ok (some m) →
      m.action = m.rule.action ∧ ∃ f, (f ∈ files ∨ inc.Offers f) ∧ m.StandsIn f := by
  have hfirst : explain inc request files =
      .ok ((flatten inc files).find? fun m => m.rule.covers request) := by
    rw [Evaluation.explain_eq_scanFiles]
    exact Evaluation.scanFiles_eq_firstCovering fun f _ _ =>
      Evaluation.findsFirst hinc request [f.name]
  refine ⟨hfirst, ?_, ?_⟩
  · rw [hfirst, Except.ok.injEq, List.find?_eq_none]
    simp only [Bool.not_eq_true]
  · intro m hm
    rw [hfirst, Except.ok.injEq] at hm
    exact ⟨rfl, Evaluation.standsIn_of_mem_flatten (List.mem_of_find?_eq_some hm)⟩

/-! ## two files that include each other -/

def outerFile : PolicyFile := .ofText "outer" true "!include inner\n* * @anyvm @anyvm deny\n"

def innerFile : PolicyFile :=
  .ofText "inner" true "!include inner\n!include outer\nqubes.Gpg * work @anyvm ask\n"

def ringFiles : List PolicyFile := [outerFile, innerFile]

theorem lines_outerFile : outerFile.lines =
    [⟨"!include inner", 1, .includes .file "inner"⟩,
      ⟨"* * @anyvm @anyvm deny", 2, .rule ⟨.wildcard, .any, .anyVM, .anyVM, .deny⟩⟩] := by
  decide +kernel

theorem lines_innerFile : innerFile.lines =
    [⟨"!include inner", 1, .includes .file "inner"⟩,
      ⟨"!include outer", 2, .includes .file "outer"⟩,
      ⟨"qubes.Gpg * work @anyvm ask", 3,
        .rule ⟨.name "qubes.Gpg", .any, .literal "work", .anyVM, .grant .ask none []⟩⟩] := by
  decide +kernel

def gpgRequest : Request := ⟨"qubes.Gpg", "", ⟨"work", none, []⟩, .qube ⟨"vault", none, []⟩⟩

theorem explain_ringFiles :
    (Includes.ofFiles (ε := Fault) ringFiles).NeverFails ∧
    explain (Includes.ofFiles (ε := Fault) ringFiles) gpgRequest ringFiles =
      .ok ((flatten (Includes.ofFiles (ε := Fault) ringFiles) ringFiles).find? fun m =>
        m.rule.covers gpgRequest) ∧
    (flatten (Includes.ofFiles (ε := Fault) ringFiles) ringFiles).map (fun m => (m.file, m.line)) =
      [("inner", 3), ("outer", 2), ("outer", 2), ("inner", 3)] := by
  have hring := Includes.neverFails_ofFiles (ε := Fault) ringFiles
  refine ⟨hring, (explain_eq_find?_flatten hring gpgRequest ringFiles).1, ?_⟩
  have houter : (Includes.ofFiles (ε := Fault) [outerFile, innerFile]).resolve .file "outer" =
      .ok [outerFile] := rfl
  have hinner : (Includes.ofFiles (ε := Fault) [outerFile, innerFile]).resolve .file "inner" =
      .ok [innerFile] := rfl
  have hnames : outerFile.name = "outer" ∧ innerFile.name = "inner" := ⟨rfl, rfl⟩
  simp [flatten, ringFiles, Evaluation.flatFiles, Evaluation.flatLines_eq_flatMap,
    Evaluation.flatLine, lines_outerFile, lines_innerFile, houter, hinner, hnames]

end QubePolicy
