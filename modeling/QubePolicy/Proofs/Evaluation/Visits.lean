import QubePolicy.Proofs.Evaluation.Scan

/-!
# The files that a scan enters

Scanning may enter a file many times, through one include line after another.

* `Visit`                      a file entered, and what was found in it;
* `Visit.Settles`              a visit that makes a later one needless;
* `visitsOfLines`, `visitsOfFiles`, `visits`   the files entered, in the order in which their scans
                               end; a file passed over is not entered;
* `onceLines`, `onceFiles`, `explainOnce`   scanning that passes over every file it has met before,
                               whether its scan has ended or not.
-/

namespace QubePolicy

variable {ε : Type}

structure Visit (ε : Type) where
  name : String
  found : Except ε (Option Match)

/-- If a visit has found nothing, neither has a later one of a file of the same name. -/
def Visit.Settles (v later : Visit ε) : Prop :=
  v.name = later.name → v.found = .ok none → later.found = .ok none

namespace Evaluation

/-! ## visits -/

mutual

/-- The files entered from lines of the file with the given name, up to the line that decides. -/
def visitsOfLines (inc : Includes ε) (request : Request) (chain : List String) (file : String) :
    List Line → List (Visit ε)
  | [] => []
  | l :: ls =>
    (match l.content with
      | .includes directive path =>
        match h : inc.resolve directive path with
        | .ok fs => visitsOfIncluded inc request chain fs (inc.resolve_mem h)
        | .error _ => []
      | .rule _ | .blank | .comment _ | .malformed _ => []) ++
    match scanLine inc request chain file l with
    | .ok none => visitsOfLines inc request chain file ls
    | _ => []
  termination_by ls => (room inc.names chain, 1, ls.length)

def visitsOfIncluded (inc : Includes ε) (request : Request) (chain : List String) :
    (fs : List PolicyFile) → (∀ f ∈ fs, f.name ∈ inc.names) → List (Visit ε)
  | [], _ => []
  | f :: fs, h =>
    if _hchain : chain.contains f.name then
      visitsOfIncluded inc request chain fs fun g hg => h g (List.mem_cons_of_mem f hg)
    else
      let found := scanLines inc request (f.name :: chain) f.name f.lines
      visitsOfLines inc request (f.name :: chain) f.name f.lines ++ ⟨f.name, found⟩ ::
        match found with
        | .ok none =>
          visitsOfIncluded inc request chain fs fun g hg => h g (List.mem_cons_of_mem f hg)
        | _ => []
  termination_by fs => (room inc.names chain, 0, fs.length)
  decreasing_by
  · simp_wf; simp [Prod.lex_def]
  · have := room_cons_lt (h f List.mem_cons_self) (by simpa using _hchain)
    simp_wf; simp [Prod.lex_def]; omega
  · simp_wf; simp [Prod.lex_def]

end

def visitsOfFiles (inc : Includes ε) (request : Request) (chain : List String) :
    List PolicyFile → List (Visit ε)
  | [] => []
  | f :: fs =>
    if chain.contains f.name then visitsOfFiles inc request chain fs
    else
      let found := scanLines inc request (f.name :: chain) f.name f.lines
      visitsOfLines inc request (f.name :: chain) f.name f.lines ++ ⟨f.name, found⟩ ::
        match found with
        | .ok none => visitsOfFiles inc request chain fs
        | _ => []

def visitsOfLine (inc : Includes ε) (request : Request) (chain : List String) (l : Line) :
    List (Visit ε) :=
  match l.content with
  | .includes directive path =>
    match inc.resolve directive path with
    | .ok fs => visitsOfFiles inc request chain fs
    | .error _ => []
  | .rule _ | .blank | .comment _ | .malformed _ => []

variable (inc : Includes ε) (request : Request) (chain : List String)

theorem visitsOfIncluded_eq (fs : List PolicyFile) (h : ∀ f ∈ fs, f.name ∈ inc.names) :
    visitsOfIncluded inc request chain fs h = visitsOfFiles inc request chain fs := by
  induction fs with
  | nil => rw [visitsOfIncluded, visitsOfFiles]
  | cons f fs ih =>
    rw [visitsOfIncluded, visitsOfFiles]
    by_cases hchain : chain.contains f.name
    · rw [dif_pos hchain, if_pos hchain]
      exact ih _
    · rw [dif_neg hchain, if_neg hchain, ih]

theorem visitsOfLines_nil (file : String) : visitsOfLines inc request chain file [] = [] := by
  rw [visitsOfLines]

theorem visitsOfLines_cons (file : String) (l : Line) (ls : List Line) :
    visitsOfLines inc request chain file (l :: ls) = visitsOfLine inc request chain l ++
      match scanLine inc request chain file l with
      | .ok none => visitsOfLines inc request chain file ls
      | _ => [] := by
  rw [visitsOfLines, visitsOfLine]
  congr 1
  cases l.content with
  | includes directive path =>
    simp only
    split
    · next fs h => rw [visitsOfIncluded_eq, h]
    · next e h => rw [h]
  | rule r => rfl
  | blank => rfl
  | comment text => rfl
  | malformed findings => rfl

/-! ## scanning each file once -/

theorem room_append_le (names entered seen : List String) :
    room names (entered ++ seen) ≤ room names seen := by
  unfold room
  rw [← List.countP_eq_length_filter, ← List.countP_eq_length_filter]
  refine List.countP_mono_left fun n _ hn => ?_
  simp only [List.contains_append, Bool.not_or, Bool.and_eq_true] at hn
  exact hn.2

mutual

/-- The first match in lines, and the files entered on the way; those in `seen` are passed over. -/
def onceLines (inc : Includes ε) (request : Request) (seen : List String) (file : String) :
    List Line → Except ε (Option Match) × List String
  | [] => (.ok none, [])
  | l :: ls =>
    match l.content with
    | .rule r =>
      if r.covers request then (.ok (some ⟨r, l.number, file⟩), [])
      else onceLines inc request seen file ls
    | .includes directive path =>
      match h : inc.resolve directive path with
      | .error e => (.error e, [])
      | .ok fs =>
        match onceIncluded inc request seen fs (inc.resolve_mem h) with
        | (.ok none, entered) =>
          let (found, more) := onceLines inc request (entered ++ seen) file ls
          (found, entered ++ more)
        | decided => decided
    | .blank | .comment _ | .malformed _ => onceLines inc request seen file ls
  termination_by ls => (room inc.names seen, 1, ls.length)
  decreasing_by
  · simp_wf; simp [Prod.lex_def]
  · simp_wf; simp [Prod.lex_def]
  · have := room_append_le inc.names entered seen
    simp_wf; simp [Prod.lex_def]; omega
  all_goals simp_wf; simp [Prod.lex_def]

def onceIncluded (inc : Includes ε) (request : Request) (seen : List String) :
    (fs : List PolicyFile) → (∀ f ∈ fs, f.name ∈ inc.names) →
      Except ε (Option Match) × List String
  | [], _ => (.ok none, [])
  | f :: fs, h =>
    if _hseen : seen.contains f.name then
      onceIncluded inc request seen fs fun g hg => h g (List.mem_cons_of_mem f hg)
    else
      match onceLines inc request (f.name :: seen) f.name f.lines with
      | (.ok none, entered) =>
        let (found, more) := onceIncluded inc request (entered ++ f.name :: seen) fs
          fun g hg => h g (List.mem_cons_of_mem f hg)
        (found, entered ++ f.name :: more)
      | decided => decided
  termination_by fs => (room inc.names seen, 0, fs.length)
  decreasing_by
  · simp_wf; simp [Prod.lex_def]
  · have := room_cons_lt (h f List.mem_cons_self) (by simpa using _hseen)
    simp_wf; simp [Prod.lex_def]; omega
  · have := room_append_le inc.names entered (f.name :: seen)
    have := room_cons_lt (h f List.mem_cons_self) (by simpa using _hseen)
    simp_wf; simp [Prod.lex_def]; omega

end

def onceFiles (inc : Includes ε) (request : Request) (seen : List String) :
    List PolicyFile → Except ε (Option Match) × List String
  | [] => (.ok none, [])
  | f :: fs =>
    if seen.contains f.name then onceFiles inc request seen fs
    else
      match onceLines inc request (f.name :: seen) f.name f.lines with
      | (.ok none, entered) =>
        let (found, more) := onceFiles inc request (entered ++ f.name :: seen) fs
        (found, entered ++ f.name :: more)
      | decided => decided

def onceLine (inc : Includes ε) (request : Request) (seen : List String) (file : String)
    (l : Line) : Except ε (Option Match) × List String :=
  match l.content with
  | .rule r => (.ok (if r.covers request then some ⟨r, l.number, file⟩ else none), [])
  | .includes directive path =>
    match inc.resolve directive path with
    | .error e => (.error e, [])
    | .ok fs => onceFiles inc request seen fs
  | .blank | .comment _ | .malformed _ => (.ok none, [])

theorem onceIncluded_eq (seen : List String) (fs : List PolicyFile)
    (h : ∀ f ∈ fs, f.name ∈ inc.names) :
    onceIncluded inc request seen fs h = onceFiles inc request seen fs := by
  induction fs generalizing seen with
  | nil => rw [onceIncluded, onceFiles]
  | cons f fs ih =>
    rw [onceIncluded, onceFiles]
    by_cases hseen : seen.contains f.name
    · rw [dif_pos hseen, if_pos hseen]
      exact ih seen _
    · rw [dif_neg hseen, if_neg hseen]
      split
      · next entered _ => rw [ih]
      · rfl

theorem onceLines_nil (seen : List String) (file : String) :
    onceLines inc request seen file [] = (.ok none, []) := by
  rw [onceLines]

theorem onceLines_cons (seen : List String) (file : String) (l : Line) (ls : List Line) :
    onceLines inc request seen file (l :: ls) =
      match onceLine inc request seen file l with
      | (.ok none, entered) =>
        let (found, more) := onceLines inc request (entered ++ seen) file ls
        (found, entered ++ more)
      | decided => decided := by
  rw [onceLines, onceLine]
  cases l.content with
  | rule r => by_cases h : r.covers request <;> simp [h]
  | includes directive path =>
    simp only
    split
    · next e h => rw [h]
    · next fs h => rw [onceIncluded_eq, h]
  | blank => simp
  | comment text => simp
  | malformed findings => simp

end Evaluation

/-! ## whole scans -/

/-- The files entered while the deciding rule is looked for. -/
def visits (inc : Includes ε) (request : Request) (files : List PolicyFile) : List (Visit ε) :=
  Evaluation.visitsOfFiles inc request [] files

/-- The deciding rule when each file is scanned only where it is first met. -/
def explainOnce (inc : Includes ε) (request : Request) (files : List PolicyFile) :
    Except ε (Option Match) :=
  (Evaluation.onceFiles inc request [] files).1

end QubePolicy
