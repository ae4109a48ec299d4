import QubePolicy.Proofs.PolicyFile.Inverses
import QubePolicy.Request

/-!
# Where lines are after edits of inert lines

A line is inert for a request if it is blank, a comment or malformed, or a rule for other requests.
Inert lines can be put in, taken out and moved: the others keep their order, and are only found at
other places.

* `Content.isInert`           a line decides nothing, whatever else there is;
* `PolicyFile.insertedAt`, `deletedAt`, `movedTo`   where a line is after an edit by index;
* `PolicyFile.Tracks`         two files have the same lines but for inert ones, in the same order;
* `tracks_insertIdx`, `tracks_eraseIdx`, `tracks_moveAt`   so it is for an inert line that is put
                              in, taken out or moved;
* `PolicyFile.InertEdit`, `tracks_of_inertEdit`   and so for every edit of an inert line.
-/

namespace QubePolicy

/-! ## inert lines -/

/-- Whether a line decides nothing about a request, nor leads to anything that might. -/
def Content.isInert (request : Request) : Content → Bool
  | .blank | .comment _ | .malformed _ => true
  | .rule r => !r.covers request
  | .includes _ _ => false

namespace PolicyFile

/-! ## places after an edit -/

def insertedAt (i p : Nat) : Nat := if p < i then p else p + 1

def deletedAt (i p : Nat) : Nat := if p < i then p else p - 1

def movedTo (i j p : Nat) : Nat := if p = i then j else insertedAt j (deletedAt i p)

theorem deletedAt_insertedAt (i p : Nat) : deletedAt i (insertedAt i p) = p := by
  grind [deletedAt, insertedAt]

theorem insertedAt_deletedAt {i p : Nat} (h : p ≠ i) : insertedAt i (deletedAt i p) = p := by
  grind [deletedAt, insertedAt]

theorem insertedAt_lt (i : Nat) {p q : Nat} (h : p < q) : insertedAt i p < insertedAt i q := by
  grind [insertedAt]

theorem getElem?_insertIdx_insertedAt {α : Type} (xs : List α) (i p : Nat) (x : α) :
    (xs.insertIdx i x)[insertedAt i p]? = xs[p]? := by
  unfold insertedAt
  split
  · next hlt => exact List.getElem?_insertIdx_of_lt hlt
  · next hge => exact List.getElem?_insertIdx_of_gt (by omega)

/-! ## tracked lines -/

def LiveAt (request : Request) (f : PolicyFile) (p : Nat) (raw : String) : Prop :=
  f.raws[p]? = some raw ∧ (Content.read f.allowIncludes raw).isInert request = false

/-- One file is the other but for inert lines: the others have gone to other places, given by
`track`, and have kept their order. -/
structure Tracks (request : Request) (track : Nat → Nat) (f g : PolicyFile) : Prop where
  name : g.name = f.name
  allowIncludes : g.allowIncludes = f.allowIncludes
  live : ∀ {q raw}, g.LiveAt request q raw ↔ ∃ p, f.LiveAt request p raw ∧ track p = q
  ordered : ∀ {p p' raw raw'}, f.LiveAt request p raw → f.LiveAt request p' raw' → p < p' →
    track p < track p'

variable {request : Request} {track back : Nat → Nat} {f g h : PolicyFile} {i j : Nat}
  {raw : String}

theorem Tracks.refl (request : Request) (f : PolicyFile) : Tracks request id f f where
  name := rfl
  allowIncludes := rfl
  live := ⟨fun hlive => ⟨_, hlive, rfl⟩, fun ⟨_, hlive, heq⟩ => heq ▸ hlive⟩
  ordered _ _ hlt := hlt

theorem Tracks.trans {track' : Nat → Nat} (hfg : Tracks request track f g)
    (hgh : Tracks request track' g h) : Tracks request (track' ∘ track) f h where
  name := hgh.name.trans hfg.name
  allowIncludes := hgh.allowIncludes.trans hfg.allowIncludes
  live := by
    intro q raw
    rw [hgh.live]
    constructor
    · rintro ⟨p, hp, rfl⟩
      obtain ⟨o, ho, rfl⟩ := hfg.live.mp hp
      exact ⟨o, ho, rfl⟩
    · rintro ⟨o, ho, rfl⟩
      exact ⟨track o, hfg.live.mpr ⟨o, ho, rfl⟩, rfl⟩
  ordered hp hp' hlt :=
    hgh.ordered (hfg.live.mpr ⟨_, hp, rfl⟩) (hfg.live.mpr ⟨_, hp', rfl⟩) (hfg.ordered hp hp' hlt)

theorem Tracks.lt_of_lt (hfg : Tracks request track f g) {p p' : Nat} {raw raw' : String}
    (hp : f.LiveAt request p raw) (hp' : f.LiveAt request p' raw') (hlt : track p < track p') :
    p < p' := by
  rcases Nat.lt_trichotomy p p' with hpp | rfl | hpp
  · exact hpp
  · exact absurd hlt (Nat.lt_irrefl _)
  · exact absurd hlt (Nat.lt_asymm (hfg.ordered hp' hp hpp))

theorem Tracks.symm (hfg : Tracks request track f g) (hback : ∀ p, back (track p) = p) :
    Tracks request back g f where
  name := hfg.name.symm
  allowIncludes := hfg.allowIncludes.symm
  live := by
    intro p raw
    constructor
    · exact fun hp => ⟨track p, hfg.live.mpr ⟨p, hp, rfl⟩, hback p⟩
    · rintro ⟨q, hq, rfl⟩
      obtain ⟨p, hp, rfl⟩ := hfg.live.mp hq
      exact (hback p).symm ▸ hp
  ordered := by
    intro q q' raw raw' hq hq' hlt
    obtain ⟨p, hp, rfl⟩ := hfg.live.mp hq
    obtain ⟨p', hp', rfl⟩ := hfg.live.mp hq'
    rw [hback, hback]
    exact hfg.lt_of_lt hp hp' hlt

theorem Tracks.congr {track' : Nat → Nat} (hfg : Tracks request track f g)
    (htrack : ∀ {p raw}, f.LiveAt request p raw → track' p = track p) :
    Tracks request track' f g where
  name := hfg.name
  allowIncludes := hfg.allowIncludes
  live := by
    intro q raw
    rw [hfg.live]
    constructor
    · rintro ⟨p, hp, rfl⟩
      exact ⟨p, hp, htrack hp⟩
    · rintro ⟨p, hp, rfl⟩
      exact ⟨p, hp, (htrack hp).symm⟩
  ordered hp hp' hlt := by
    rw [htrack hp, htrack hp']
    exact hfg.ordered hp hp' hlt

/-! ## edits of inert lines -/

theorem tracks_insertIdx (hi : i ≤ f.raws.length)
    (hinert : (Content.read f.allowIncludes raw).isInert request = true) :
    Tracks request (insertedAt i) f { f with raws := f.raws.insertIdx i raw } where
  name := rfl
  allowIncludes := rfl
  live := by
    intro q raw'
    constructor
    · rintro ⟨hq, hlive⟩
      have hne : q ≠ i := by
        rintro rfl
        rw [List.getElem?_insertIdx_self, if_pos hi] at hq
        obtain rfl : raw = raw' := Option.some.inj hq
        rw [hinert] at hlive
        cases hlive
      rw [← insertedAt_deletedAt hne, getElem?_insertIdx_insertedAt] at hq
      exact ⟨deletedAt i q, ⟨hq, hlive⟩, insertedAt_deletedAt hne⟩
    · rintro ⟨p, ⟨hp, hlive⟩, rfl⟩
      exact ⟨(getElem?_insertIdx_insertedAt ..).trans hp, hlive⟩
  ordered _ _ hlt := insertedAt_lt i hlt

/-- To take a line out is to go back to where it was not put in yet. -/
theorem tracks_eraseIdx (hraw : f.raws[i]? = some raw)
    (hinert : (Content.read f.allowIncludes raw).isInert request = true) :
    Tracks request (deletedAt i) f { f with raws := f.raws.eraseIdx i } := by
  obtain ⟨hi, -⟩ := List.getElem?_eq_some_iff.mp hraw
  have hinsert := tracks_insertIdx (f := { f with raws := f.raws.eraseIdx i })
    (le_length_eraseIdx hraw hi) hinert
  simp only [insertIdx_eraseIdx hraw] at hinsert
  exact hinsert.symm (deletedAt_insertedAt i)

theorem tracks_moveAt (hraw : f.raws[i]? = some raw)
    (hinert : (Content.read f.allowIncludes raw).isInert request = true)
    (hj : j < f.raws.length) :
    Tracks request (movedTo i j) f { f with raws := moveAt f.raws i j } := by
  rw [moveAt_eq_insertIdx hraw]
  refine ((tracks_eraseIdx hraw hinert).trans
    (tracks_insertIdx (le_length_eraseIdx hraw hj) hinert)).congr fun {p raw'} hlive => ?_
  have hne : p ≠ i := by
    rintro rfl
    obtain ⟨hraw', hlive⟩ := hlive
    obtain rfl : raw = raw' := Option.some.inj (hraw.symm.trans hraw')
    rw [hinert] at hlive
    cases hlive
  exact if_neg hne

/-- An edit that puts in, takes out or moves an inert line, and where it takes the others. -/
inductive InertEdit (request : Request) (f : PolicyFile) : (Nat → Nat) → PolicyFile → Prop
  | insertLine {i : Nat} {raw : String} {g : PolicyFile} :
      (Content.read f.allowIncludes raw).isInert request = true →
      f.insertLine (.whole i) raw = .ok g → InertEdit request f (insertedAt i) g
  | deleteLine {i : Nat} {l : Line} {g : PolicyFile} :
      f.line? i = some l → l.content.isInert request = true →
      f.deleteLine (.whole i) = .ok g → InertEdit request f (deletedAt i) g
  | moveLine {i j : Nat} {l : Line} {g : PolicyFile} :
      f.line? i = some l → l.content.isInert request = true →
      f.moveLine (.whole i) (.whole j) = .ok g → InertEdit request f (movedTo i j) g

/-- **An edit of an inert line keeps the others, in their order.** -/
theorem tracks_of_inertEdit (hedit : InertEdit request f track g) : Tracks request track f g := by
  cases hedit with
  | @insertLine i raw _ hinert hg =>
    obtain ⟨i', hi', hlt, -, rfl⟩ := insertLine_eq_ok_iff.mp hg
    obtain rfl := toNat?_whole.mp hi'
    exact tracks_insertIdx (Nat.le_of_lt_succ hlt) hinert
  | @deleteLine i l _ hline hinert hg =>
    obtain ⟨raw, hraw, rfl⟩ := line?_eq_some_iff.mp hline
    obtain ⟨i', hi', -, rfl⟩ := deleteLine_eq_ok_iff.mp hg
    obtain rfl := toNat?_whole.mp hi'
    exact tracks_eraseIdx hraw hinert
  | @moveLine i j l _ hline hinert hg =>
    obtain ⟨raw, hraw, rfl⟩ := line?_eq_some_iff.mp hline
    obtain ⟨i', j', hi', -, hj', hj, rfl⟩ := moveLine_eq_ok_iff.mp hg
    obtain rfl := toNat?_whole.mp hi'
    obtain rfl := toNat?_whole.mp hj'
    exact tracks_moveAt hraw hinert hj

end PolicyFile

end QubePolicy
