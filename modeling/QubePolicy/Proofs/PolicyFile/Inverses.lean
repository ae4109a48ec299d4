import QubePolicy.Proofs.PolicyFile.Edits

/-!
# Undoing an edit

Each edit by index is undone by another one, and a move is a deletion and an insertion.

* `moveAt_eq_insertIdx`, `eraseIdx_moveAt`, `moveAt_moveAt`   a move in a list of raw lines;
* `insertLine_whole`, `replaceLine_whole`, `deleteLine_whole`, `moveLine_whole`
                                   the edits at an index in its range;
* `insertLine_deleteLine`, `moveLine_moveLine`, `deleteLine_insertLine`, `replaceLine_replaceLine`
                                   what two edits in turn come to;
* `Guarded`                        a result under a condition, and the refusal of a misuse without;
* `Edit.Fits`, `Edit.guarded_apply`   the indices of an edit are in range and its line is one line:
                                   this is when it has a result;
* `edits_exact`                    so it is for every file that comes of a text by edits.
-/

namespace QubePolicy

def Number.IsIndexBelow (bound : Nat) (x : Number) : Prop := ∃ i : Nat, i < bound ∧ x = .whole i

theorem Line.map_number_readFrom (allowIncludes : Bool) (n : Nat) (raws : List String) :
    (readFrom allowIncludes n raws).map Line.number = List.range' n raws.length := by
  induction raws generalizing n with
  | nil => rfl
  | cons raw raws ih =>
    rw [readFrom_cons, List.map_cons, ih, List.length_cons, List.range'_succ]
    rfl

namespace PolicyFile

/-! ## moves in a list -/

section

variable {raws : List String} {raw : String} {i j : Nat}

theorem moveAt_eq_insertIdx (h : raws[i]? = some raw) :
    moveAt raws i j = (raws.eraseIdx i).insertIdx j raw := by
  rw [moveAt, h]

theorem eraseIdx_moveAt (h : raws[i]? = some raw) :
    (moveAt raws i j).eraseIdx j = raws.eraseIdx i := by
  rw [moveAt_eq_insertIdx h, List.eraseIdx_insertIdx_self]

theorem le_length_eraseIdx (h : raws[i]? = some raw) (hj : j < raws.length) :
    j ≤ (raws.eraseIdx i).length := by
  obtain ⟨hi, -⟩ := List.getElem?_eq_some_iff.mp h
  rw [List.length_eraseIdx_of_lt hi]
  omega

theorem getElem?_moveAt (h : raws[i]? = some raw) (hj : j < raws.length) :
    (moveAt raws i j)[j]? = some raw := by
  rw [moveAt_eq_insertIdx h, List.getElem?_insertIdx_self,
    if_pos (le_length_eraseIdx h hj)]

theorem insertIdx_eraseIdx (h : raws[i]? = some raw) :
    (raws.eraseIdx i).insertIdx i raw = raws := by
  obtain ⟨hi, rfl⟩ := List.getElem?_eq_some_iff.mp h
  exact List.insertIdx_eraseIdx_getElem hi

theorem length_moveAt (h : raws[i]? = some raw) (hj : j < raws.length) :
    (moveAt raws i j).length = raws.length := by
  obtain ⟨hi, -⟩ := List.getElem?_eq_some_iff.mp h
  rw [moveAt_eq_insertIdx h, List.length_insertIdx_of_le_length (le_length_eraseIdx h hj),
    List.length_eraseIdx_of_lt hi]
  omega

/-- **A move is undone by the move back**, whichever of the two indices is the greater one: the
line that was put in is the one that is taken out. -/
theorem moveAt_moveAt (h : raws[i]? = some raw) (hj : j < raws.length) :
    moveAt (moveAt raws i j) j i = raws := by
  rw [moveAt_eq_insertIdx (getElem?_moveAt h hj), eraseIdx_moveAt h, insertIdx_eraseIdx h]

end

/-! ## edits at an index in range -/

variable {f g : PolicyFile} {raw : String} {i j : Nat}

theorem line?_eq_some_iff {l : Line} : f.line? i = some l ↔
    ∃ raw, f.raws[i]? = some raw ∧ l = Line.read f.allowIncludes (i + 1) raw := by
  rw [line?_eq, Option.map_eq_some_iff]
  simp only [eq_comm]

theorem insertLine_whole (hi : i ≤ f.raws.length) (hraw : '\n' ∉ raw.toList) :
    f.insertLine (.whole i) raw = .ok { f with raws := f.raws.insertIdx i raw } :=
  insertLine_eq_ok_iff.mpr ⟨i, toNat?_whole.mpr rfl, Nat.lt_succ_of_le hi, hraw, rfl⟩

theorem replaceLine_whole (hi : i < f.raws.length) (hraw : '\n' ∉ raw.toList) :
    f.replaceLine (.whole i) raw = .ok { f with raws := f.raws.set i raw } :=
  replaceLine_eq_ok_iff.mpr ⟨i, toNat?_whole.mpr rfl, hi, hraw, rfl⟩

theorem deleteLine_whole (hi : i < f.raws.length) :
    f.deleteLine (.whole i) = .ok { f with raws := f.raws.eraseIdx i } :=
  deleteLine_eq_ok_iff.mpr ⟨i, toNat?_whole.mpr rfl, hi, rfl⟩

theorem moveLine_whole (hi : i < f.raws.length) (hj : j < f.raws.length) :
    f.moveLine (.whole i) (.whole j) = .ok { f with raws := moveAt f.raws i j } :=
  moveLine_eq_ok_iff.mpr ⟨i, j, toNat?_whole.mpr rfl, hi, toNat?_whole.mpr rfl, hj, rfl⟩

/-! ## two edits in turn -/

theorem insertLine_deleteLine (hi : i ≤ f.raws.length) (hraw : '\n' ∉ raw.toList) :
    (f.insertLine (.whole i) raw >>= fun g => g.deleteLine (.whole i)) = .ok f := by
  have hlt : i < (f.raws.insertIdx i raw).length := by
    rw [List.length_insertIdx_of_le_length hi]
    omega
  refine Except.bind_eq_ok_iff.mpr ⟨_, insertLine_whole hi hraw, ?_⟩
  rw [deleteLine_whole hlt, List.eraseIdx_insertIdx_self]

theorem replaceLine_replaceLine {old : String} (hold : f.raws[i]? = some old)
    (hplain : '\n' ∉ old.toList) (hraw : '\n' ∉ raw.toList) :
    (f.replaceLine (.whole i) raw >>= fun g => g.replaceLine (.whole i) old) = .ok f := by
  obtain ⟨hi, rfl⟩ := List.getElem?_eq_some_iff.mp hold
  have hlt : i < (f.raws.set i raw).length := by rwa [List.length_set]
  refine Except.bind_eq_ok_iff.mpr ⟨_, replaceLine_whole hi hraw, ?_⟩
  rw [replaceLine_whole hlt hplain, List.set_set, List.set_getElem_self]

/-- A move is the deletion of the line and its insertion at the second index, which counts the
lines that are left. -/
theorem deleteLine_insertLine (h : f.raws[i]? = some raw) (hplain : '\n' ∉ raw.toList)
    (hj : j < f.raws.length) : (f.deleteLine (.whole i) >>= fun g => g.insertLine (.whole j) raw) =
      f.moveLine (.whole i) (.whole j) := by
  obtain ⟨hi, -⟩ := List.getElem?_eq_some_iff.mp h
  rw [moveLine_whole hi hj, moveAt_eq_insertIdx h]
  exact Except.bind_eq_ok_iff.mpr
    ⟨_, deleteLine_whole hi, insertLine_whole (le_length_eraseIdx h hj) hplain⟩

theorem moveLine_moveLine (hi : i < f.raws.length) (hj : j < f.raws.length) :
    (f.moveLine (.whole i) (.whole j) >>= fun g => g.moveLine (.whole j) (.whole i)) = .ok f := by
  have hraw : f.raws[i]? = some f.raws[i] := List.getElem?_eq_getElem hi
  have hlength := length_moveAt hraw hj
  refine Except.bind_eq_ok_iff.mpr ⟨_, moveLine_whole hi hj, ?_⟩
  rw [moveLine_whole (hlength ▸ hj) (hlength ▸ hi), moveAt_moveAt hraw hj]

/-! ## refused edits -/

/-- There is a result exactly if `p` holds, and otherwise the refusal of a misuse. -/
structure Guarded {α : Type} (p : Prop) (x : Except Fault α) : Prop where
  result : p → ∃ a, x = .ok a
  refusal : ¬ p → ∃ m, x = .error (.misuse m)

section

variable {α β : Type} {p q : Prop} {x : Except Fault α}

theorem Guarded.bind {h : α → Except Fault β} (hx : Guarded p x) (hh : ∀ a, Guarded q (h a)) :
    Guarded (p ∧ q) (x >>= h) := by
  by_cases hp : p
  · obtain ⟨a, rfl⟩ := hx.result hp
    exact ⟨fun hpq => (hh a).result hpq.2, fun hpq => (hh a).refusal fun hq => hpq ⟨hp, hq⟩⟩
  · obtain ⟨m, rfl⟩ := hx.refusal hp
    exact ⟨fun hpq => absurd hpq.1 hp, fun _ => ⟨m, rfl⟩⟩

theorem Guarded.andThen (hx : Guarded p x) (h : α → β) : Guarded p (x >>= fun a => .ok (h a)) := by
  constructor
  · intro hp
    obtain ⟨a, rfl⟩ := hx.result hp
    exact ⟨h a, rfl⟩
  · intro hp
    obtain ⟨m, rfl⟩ := hx.refusal hp
    exact ⟨m, rfl⟩

end

theorem guarded_checkIndex (index : Number) (bound : Nat) :
    Guarded (index.IsIndexBelow bound) (f.checkIndex index bound) := by
  constructor
  · rintro ⟨i, hi, rfl⟩
    exact ⟨i, checkIndex_eq_ok_iff.mpr ⟨toNat?_whole.mpr rfl, hi⟩⟩
  · intro hindex
    refine ⟨.indexOutOfRange index f.name (bound - 1), ?_⟩
    unfold checkIndex
    split
    · next i hi =>
      have hge : ¬ i < bound := fun hlt => hindex ⟨i, hlt, Number.toNat?_eq_some_iff.mp hi⟩
      rw [if_neg hge, checkIndex.refuse]
    · rfl

theorem guarded_checkSingleLine (raw : String) :
    Guarded ('\n' ∉ raw.toList) (f.checkSingleLine raw) := by
  unfold checkSingleLine
  by_cases hraw : '\n' ∈ raw.toList
  · rw [if_pos (List.contains_iff_mem.mpr hraw)]
    exact ⟨fun h => absurd hraw h, fun _ => ⟨_, rfl⟩⟩
  · rw [if_neg (mt List.contains_iff_mem.mp hraw)]
    exact ⟨fun _ => ⟨(), rfl⟩, fun h => absurd hraw h⟩

/-- Whether the indices of an edit are in their ranges, and its line is one line. -/
def Edit.Fits (f : PolicyFile) : Edit → Prop
  | .setText _ => True
  | .insertLine index raw => index.IsIndexBelow (f.lines.length + 1) ∧ '\n' ∉ raw.toList
  | .replaceLine index raw => index.IsIndexBelow f.lines.length ∧ '\n' ∉ raw.toList
  | .deleteLine index => index.IsIndexBelow f.lines.length
  | .moveLine source target =>
    source.IsIndexBelow f.lines.length ∧ target.IsIndexBelow f.lines.length

/-- **An edit has a result exactly if it fits**, and otherwise it is refused as a misuse. -/
theorem Edit.guarded_apply (e : Edit) : Guarded (e.Fits f) (e.apply f) := by
  cases e with
  | setText text => exact ⟨fun _ => ⟨_, rfl⟩, fun h => absurd trivial h⟩
  | insertLine index raw =>
    rw [Fits, length_lines]
    exact (guarded_checkIndex _ _).bind fun i => (guarded_checkSingleLine raw).andThen _
  | replaceLine index raw =>
    rw [Fits, length_lines]
    exact (guarded_checkIndex _ _).bind fun i => (guarded_checkSingleLine raw).andThen _
  | deleteLine index =>
    rw [Fits, length_lines]
    exact (guarded_checkIndex _ _).andThen _
  | moveLine source target =>
    rw [Fits, length_lines]
    exact (guarded_checkIndex _ _).bind fun i => (guarded_checkIndex _ _).andThen _

theorem map_number_lines (f : PolicyFile) :
    f.lines.map Line.number = List.range' 1 f.lines.length := by
  rw [length_lines]
  exact Line.map_number_readFrom _ _ _

/-! ## all edits -/

/-- **Edits by index are exact and can be undone.** In every file that comes of a text by edits:

* a line that is inserted can be deleted again, and a line that is replaced can be put back;
* a move is undone by the move back. It is the deletion of the line and its insertion at the second
  index, and takes the line through the others, which stay in their order;
* an edit has a result exactly if its indices are in their ranges and its line has no line feed in
  it, and then lines are numbered by their positions; otherwise it is refused as an edit.

The files that are equal here have the same lines, text and diagnostics: these are all read off
the file. -/
theorem edits_exact (name : String) (allowIncludes : Bool) (text : String) (es : List Edit) :
    let f := (ofText name allowIncludes text).editAll es
    (∀ (i : Nat) (raw : String), i ≤ f.lines.length → '\n' ∉ raw.toList →
      (f.insertLine (.whole i) raw >>= fun g => g.deleteLine (.whole i)) = .ok f) ∧
    (∀ (i : Nat) (old : Line) (raw : String), f.line? i = some old → '\n' ∉ raw.toList →
      (f.replaceLine (.whole i) raw >>= fun g => g.replaceLine (.whole i) old.raw) = .ok f) ∧
    (∀ (i j : Nat) (moved : Line), f.line? i = some moved → j < f.lines.length →
      ∃ g, f.moveLine (.whole i) (.whole j) = .ok g ∧
        g.moveLine (.whole j) (.whole i) = .ok f ∧
        (f.deleteLine (.whole i) >>= fun h => h.insertLine (.whole j) moved.raw) = .ok g ∧
        (g.lines.map Line.raw)[j]? = some moved.raw ∧
        (g.lines.map Line.raw).eraseIdx j = (f.lines.map Line.raw).eraseIdx i) ∧
    ∀ e : Edit,
      (e.Fits f → ∃ g, e.apply f = .ok g ∧
        g.lines.map Line.number = List.range' 1 g.lines.length) ∧
      (¬ e.Fits f → ∃ fault, e.apply f = .error fault ∧ fault.title = "PolicyEditError") := by
  intro f
  have hplain : f.Plain := plain_editAll (plain_ofText name allowIncludes text) es
  refine ⟨fun i raw hi hraw => ?_, fun i old raw hline hraw => ?_, fun i j moved hmoved hj => ?_,
    fun e => ⟨fun hfits => ?_, fun hfits => ?_⟩⟩
  · exact insertLine_deleteLine (f.length_lines ▸ hi) hraw
  · obtain ⟨old, hold, rfl⟩ := line?_eq_some_iff.mp hline
    exact replaceLine_replaceLine hold (hplain old (List.mem_of_getElem? hold)) hraw
  · obtain ⟨raw, hraw, rfl⟩ := line?_eq_some_iff.mp hmoved
    obtain ⟨hi, -⟩ := List.getElem?_eq_some_iff.mp hraw
    rw [length_lines] at hj
    have hmove := moveLine_whole hi hj
    obtain ⟨g, hg, hback⟩ := Except.bind_eq_ok_iff.mp (moveLine_moveLine hi hj)
    obtain rfl := Except.ok.inj (hmove.symm.trans hg)
    refine ⟨_, hmove, hback, ?_, ?_, ?_⟩
    · exact (deleteLine_insertLine hraw (hplain raw (List.mem_of_getElem? hraw)) hj).trans hmove
    · rw [map_raw_lines]
      exact getElem?_moveAt hraw hj
    · rw [map_raw_lines, map_raw_lines]
      exact eraseIdx_moveAt hraw
  · obtain ⟨g, hg⟩ := e.guarded_apply.result hfits
    exact ⟨g, hg, g.map_number_lines⟩
  · obtain ⟨m, hm⟩ := e.guarded_apply.refusal hfits
    exact ⟨.misuse m, hm, rfl⟩

def threeLines : PolicyFile := .ofText "30-user" true "# first\n\n# third"

theorem raws_threeLines : threeLines.raws = ["# first", "", "# third"] := by decide +kernel

theorem edits_exact_threeLines : ∃ g, threeLines.moveLine (.whole 0) (.whole 2) = .ok g ∧
    g.text = "\n# third\n# first" ∧ g.moveLine (.whole 2) (.whole 0) = .ok threeLines := by
  have hline : threeLines.line? 0 = some (.read true 1 "# first") := by
    rw [line?_eq, raws_threeLines]
    rfl
  have hlength : 2 < threeLines.lines.length := by
    rw [length_lines, raws_threeLines]
    decide
  obtain ⟨-, -, hmove, -⟩ := edits_exact "30-user" true "# first\n\n# third" []
  obtain ⟨g, hg, hback, -⟩ := hmove 0 2 _ hline hlength
  refine ⟨g, hg, ?_, hback⟩
  obtain ⟨i, j, hi, -, hj, -, rfl⟩ := moveLine_eq_ok_iff.mp hg
  cases hi
  cases hj
  decide +kernel

end PolicyFile

end QubePolicy
