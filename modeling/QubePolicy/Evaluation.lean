import QubePolicy.Includes
import QubePolicy.Request

/-!
# Evaluation

The first rule that covers a request decides it. Files are scanned in their order, the lines of a
file from the top, and an include line stands for the files behind it; a file that is already
being scanned is passed over.

* `Match`             a rule with its line and its file;
* `Evaluation.room`   the number of names that are not on the chain of files being scanned. It
                      falls with each file entered, which is why scanning ends;
* `explain`           the deciding rule, if there is one.
-/

namespace QubePolicy

structure Match where
  rule : Rule
  line : Nat
  file : String
  deriving DecidableEq, Repr

def Match.action (m : Match) : Action := m.rule.action

namespace Evaluation

variable {ε : Type}

/-! ## the chain of files being scanned -/

/-- How many of the names are not on the chain. -/
def room (names chain : List String) : Nat := (names.filter fun n => !chain.contains n).length

theorem room_cons_lt {names chain : List String} {name : String} (hname : name ∈ names)
    (hchain : chain.contains name = false) : room names (name :: chain) < room names chain := by
  have split : names.filter (fun n => !(name :: chain).contains n) =
      (names.filter fun n => !chain.contains n).filter fun n => n != name := by
    rw [List.filter_filter]
    apply List.filter_congr
    intro n _
    simp only [List.contains_cons, Bool.not_or, bne]
  unfold room
  rw [split]
  apply List.length_filter_lt_length_iff_exists.mpr
  exact ⟨name, by simp [hname] at hchain ⊢; exact hchain, by simp⟩

/-! ## scanning -/

mutual

/-- The first match in lines of the file with the given name, which is on the chain. -/
def scanLines (inc : Includes ε) (request : Request) (chain : List String) (file : String) :
    List Line → Except ε (Option Match)
  | [] => .ok none
  | l :: ls =>
    match l.content with
    | .rule r =>
      if r.covers request then .ok (some ⟨r, l.number, file⟩)
      else scanLines inc request chain file ls
    | .includes directive path =>
      match h : inc.resolve directive path with
      | .error e => .error e
      | .ok fs =>
        match scanIncluded inc request chain fs (inc.resolve_mem h) with
        | .ok none => scanLines inc request chain file ls
        | found => found
    | .blank | .comment _ | .malformed _ => scanLines inc request chain file ls
  termination_by ls => (room inc.names chain, 1, ls.length)

def scanIncluded (inc : Includes ε) (request : Request) (chain : List String) :
    (fs : List PolicyFile) → (∀ f ∈ fs, f.name ∈ inc.names) → Except ε (Option Match)
  | [], _ => .ok none
  | f :: fs, h =>
    if _hchain : chain.contains f.name then
      scanIncluded inc request chain fs fun g hg => h g (List.mem_cons_of_mem f hg)
    else
      match scanLines inc request (f.name :: chain) f.name f.lines with
      | .ok none => scanIncluded inc request chain fs fun g hg => h g (List.mem_cons_of_mem f hg)
      | found => found
  termination_by fs => (room inc.names chain, 0, fs.length)
  decreasing_by
  · simp_wf; simp [Prod.lex_def]
  · have := room_cons_lt (h f List.mem_cons_self) (by simpa using _hchain)
    simp_wf; simp [Prod.lex_def]; omega
  · simp_wf; simp [Prod.lex_def]

end

/-- The first match in a file that nothing includes. -/
def scanFile (inc : Includes ε) (request : Request) (f : PolicyFile) : Except ε (Option Match) :=
  scanLines inc request [f.name] f.name f.lines

end Evaluation

/-- The deciding rule of a request. -/
def explain {ε : Type} (inc : Includes ε) (request : Request) :
    List PolicyFile → Except ε (Option Match)
  | [] => .ok none
  | f :: fs =>
    match Evaluation.scanFile inc request f with
    | .ok none => explain inc request fs
    | found => found

end QubePolicy
