import QubePolicy.Proofs.AuditLog.Outside
import QubePolicy.Proofs.Instant.Render

/-!
# Where a log is moved aside to

The place has the name of the log with the instant behind it, in the same directory. Different
instants have different places, and none of them is that of the log.

* `AuditLog.folder`, `lastPiece`   the directory of the log, and the last piece of its path;
* `AuditLog.asidePlace_eq`         the place in terms of the two;
* `AuditLog.asidePlace_inj`, `asidePlace_ne_place`   instants are told apart by their places.
-/

namespace QubePolicy

theorem Text.exists_splitAt_append {sep : Char} {tail : List Char} (h : sep ∉ tail)
    (cs : List Char) : ∃ parts part, splitAt sep cs = parts ++ [part] ∧
      splitAt sep (cs ++ tail) = parts ++ [part ++ tail] := by
  induction cs with
  | nil => exact ⟨[], [], rfl, splitAt_of_not_mem h⟩
  | cons c cs ih =>
    obtain ⟨parts, part, hcs, htail⟩ := ih
    rw [List.cons_append, splitAt, splitAt, hcs, htail]
    by_cases hc : c = sep
    · rw [if_pos hc, if_pos hc]
      exact ⟨[] :: parts, part, rfl, rfl⟩
    · rw [if_neg hc, if_neg hc]
      cases parts with
      | nil => exact ⟨[], c :: part, rfl, rfl⟩
      | cons first parts => exact ⟨(c :: first) :: parts, part, rfl, rfl⟩

namespace AuditLog

variable {a : AuditLog} {t t' now : Instant}

/-! ## texts -/

def stamp (now : Instant) : List Char := '.' :: now.spelled '-' '-'

theorem asidePath_eq (a : AuditLog) (now : Instant) :
    (a.asidePath now).toList = a.path.toList ++ stamp now := by
  have hdash : now.render.toList.map (fun c => if c = ':' || c = '.' then '-' else c) =
      now.spelled '-' '-' := by
    rw [Instant.toList_render]
    refine Instant.map_spelled (fun c hc => ?_) (by simp) ':' '.' now
    split
    · next hmark =>
      rcases Bool.or_eq_true _ _ ▸ hmark with h | h <;>
        · rw [of_decide_eq_true h] at hc
          cases hc
    · rfl
  show (a.path ++ "." ++ String.ofList _).toList = _
  rw [hdash, String.toList_append, String.toList_append, String.toList_ofList,
    String.toList_ofList, List.append_assoc]
  rfl

theorem stamp_inj (h : stamp t = stamp t') : t = t' := by
  injection h with _ h
  exact Instant.spelled_inj h

theorem getLast?_stamp (now : Instant) : (stamp now).getLast? = some 'Z' := by
  have hlast (c : Char) (cs : List Char) : (c :: (cs ++ ['Z'])).getLast? = some 'Z' := by
    rw [← List.cons_append, List.getLast?_concat]
  unfold stamp Instant.spelled Instant.behindYear
  simp only [← List.cons_append, ← List.append_assoc]
  exact hlast _ _

theorem not_slash_mem_stamp (now : Instant) : '/' ∉ stamp now := by
  rw [stamp, List.mem_cons, not_or]
  exact ⟨by decide, Instant.not_mem_spelled (by decide) (by decide)⟩

/-! ## places -/

/-- The directory that the path of the log leads to, but for its last piece. -/
def folder (a : AuditLog) : Path := ⟨(Path.pieces a.path).dropLast.foldl Path.step []⟩

def lastPiece (a : AuditLog) : String := (Path.pieces a.path).getLast?.getD ""

def asideName (a : AuditLog) (now : Instant) : String :=
  String.ofList (a.lastPiece.toList ++ stamp now)

theorem pieces_eq (a : AuditLog) (now : Instant) :
    Path.pieces a.path = (Path.pieces a.path).dropLast ++ [a.lastPiece] ∧
      Path.pieces (a.asidePath now) = (Path.pieces a.path).dropLast ++ [a.asideName now] := by
  obtain ⟨parts, part, hpath, haside⟩ :=
    Text.exists_splitAt_append (not_slash_mem_stamp now) a.path.toList
  have hpieces : Path.pieces a.path = parts.map String.ofList ++ [String.ofList part] := by
    rw [Path.pieces, hpath, List.map_append, List.map_singleton]
  have hlast : a.lastPiece = String.ofList part := by
    rw [lastPiece, hpieces, List.getLast?_concat, Option.getD_some]
  rw [hpieces, List.dropLast_concat, hlast]
  refine ⟨rfl, ?_⟩
  rw [Path.pieces, asidePath_eq, haside, List.map_append, List.map_singleton, asideName, hlast,
    String.toList_ofList]

theorem place_eq (a : AuditLog) : a.place = ⟨Path.step a.folder.names a.lastPiece⟩ := by
  have hpieces := (pieces_eq a ⟨0⟩).1
  rw [place, Path.resolve_root, hpieces, List.foldl_append]
  rfl

theorem asidePlace_eq (a : AuditLog) (now : Instant) :
    a.asidePlace now = a.folder.child (a.asideName now) := by
  have hname : ∀ s : String, s.toList.getLast? ≠ some 'Z' → a.asideName now ≠ s := by
    intro s hs hsame
    rw [← hsame, asideName, String.toList_ofList, List.getLast?_append, getLast?_stamp] at hs
    exact hs rfl
  have hstep : Path.step a.folder.names (a.asideName now) =
      a.folder.names ++ [a.asideName now] := by
    rw [Path.step, if_neg, if_neg (hname ".." (by decide))]
    simp [hname "" (by decide), hname "." (by decide)]
  rw [asidePlace, Path.resolve_root, (pieces_eq a now).2, List.foldl_append,
    List.foldl_cons, List.foldl_nil]
  exact congrArg Path.mk hstep

theorem outside_of_folder {s : Store}
    (hlog : ∀ directory ∈ s.directories, a.place.Apart directory)
    (hfolder : ∀ directory ∈ s.directories, a.folder.Apart directory) (now : Instant) :
    a.Outside s now := by
  intro directory hdirectory
  refine ⟨hlog directory hdirectory, ?_⟩
  rw [asidePlace_eq]
  have h : directory.Apart (a.folder.child (a.asideName now)) :=
    Path.Apart.child ⟨(hfolder directory hdirectory).2, (hfolder directory hdirectory).1⟩ _
  exact ⟨h.2, h.1⟩

/-- **Different instants have different places.** -/
theorem asidePlace_inj (h : a.asidePlace t = a.asidePlace t') : t = t' := by
  rw [asidePlace_eq, asidePlace_eq] at h
  have hname := String.ofList_inj.mp (Path.child_inj h).2
  exact stamp_inj (List.append_cancel_left hname)

/-- **None of them is the place of the log.** -/
theorem asidePlace_ne_place (a : AuditLog) (now : Instant) : a.asidePlace now ≠ a.place := by
  rw [asidePlace_eq, place_eq]
  intro h
  have hnames : a.folder.names ++ [a.asideName now] = Path.step a.folder.names a.lastPiece :=
    congrArg Path.names h
  have hlength := congrArg List.length hnames
  unfold Path.step at hnames hlength
  split at hlength
  · simp at hlength
  · split at hlength
    · rw [List.length_append, List.length_dropLast, List.length_singleton] at hlength
      omega
    · next hdot hdots =>
      rw [if_neg hdot, if_neg hdots] at hnames
      have hname := List.append_cancel_left hnames
      injection hname with hname _
      have hlong := congrArg (fun s : String => s.toList.length) hname
      rw [asideName, String.toList_ofList, List.length_append] at hlong
      simp [stamp] at hlong

theorem not_contains_asidePlace (hne : t ≠ t') :
    ¬(a.asidePlace t).Contains (a.asidePlace t') := by
  intro hcontains
  rw [asidePlace_eq, asidePlace_eq] at hcontains
  have hlength : (a.folder.child (a.asideName t)).names.length =
      (a.folder.child (a.asideName t')).names.length := by
    simp [Path.child]
  have hsame : a.folder.child (a.asideName t) = a.folder.child (a.asideName t') :=
    congrArg Path.mk (hcontains.eq_of_length hlength)
  rw [← asidePlace_eq, ← asidePlace_eq] at hsame
  exact hne (asidePlace_inj hsame)

/-- What is above one log moved aside is above all of them, unless it is that log itself. -/
theorem contains_asidePlace {p : Path} (h : p.Contains (a.asidePlace t)) (hne : p ≠ a.asidePlace t)
    (t' : Instant) : p.Contains (a.asidePlace t') := by
  rw [asidePlace_eq] at h hne ⊢
  rcases List.prefix_concat_iff.mp h with hsame | hfolder
  · exact absurd (congrArg Path.mk hsame) hne
  · exact hfolder.trans (List.prefix_append _ _)

end AuditLog

end QubePolicy
