import QubePolicy.Proofs.Action.Offences
import QubePolicy.Proofs.PolicyFile.Errors
import QubePolicy.Proofs.Token.Layout

/-!
# Where diagnostics point

What is told of a line is told at columns of its text, or at the one column behind it if something
is missing there. It is one column at least, but for a target of which nothing is written.

* `Token.within_all`         some tokens of a line stand inside it, one after another;
* `Finding.PointsInto`       a finding is at columns of a line;
* `Finding.Located.pointsInto`   what can be told of the tokens of a line is so;
* `Diagnostic.TellsEmptyTarget`  the one diagnostic that is at no column;
* `PolicyFile.diagnostics_point_into_lines`   every diagnostic of a file points into its line.
-/

namespace QubePolicy

/-! ## columns of tokens -/

namespace Token

variable {column : Int} {cs : List Char}

theorem within_all {first : Token} {rest : List Token}
    (h : (first :: rest).Sublist (scanFrom column cs)) :
    column ≤ first.column ∧ first.column < (rest.getLast?.getD first).endColumn ∧
      (rest.getLast?.getD first).endColumn ≤ column + Text.width cs := by
  obtain ⟨hfirst, hlt, hend⟩ := within_scanFrom (h.subset List.mem_cons_self)
  cases hlast : rest.getLast? with
  | none => exact ⟨hfirst, hlt, hend⟩
  | some last =>
    have hmem := List.mem_of_getLast? hlast
    obtain ⟨-, hlt', hend'⟩ := within_scanFrom (h.subset (List.mem_cons_of_mem first hmem))
    have horder := (List.pairwise_cons.mp ((pairwise_scanFrom column cs).sublist h)).1 last hmem
    exact ⟨hfirst, Int.lt_trans hlt (Int.lt_trans horder hlt'), hend'⟩

end Token

/-! ## columns of findings -/

namespace Finding

def AtEmptyTarget (f : Finding) (raw : String) : Prop :=
  ∃ t ∈ Token.scan raw, ∃ mode : Grant, t.value = mode.targetKey ++ "=" ∧
    f.problem = .missingQubeName ∧ f.place.span = ⟨t.endColumn, t.endColumn⟩

/-- **A finding is at columns of a line**, or at the column behind it where something is missing. -/
structure PointsInto (f : Finding) (raw : String) : Prop where
  first : 1 ≤ f.place.span.column
  visible : f.place.span.column < f.place.span.endColumn ∨ f.AtEmptyTarget raw
  last : f.place.span.endColumn ≤ Text.units raw + 2
  missing : Text.units raw + 1 < f.place.span.endColumn → f.problem.IsMissing

namespace PointsInto

variable {f : Finding} {raw : String}

theorem of_within (hfirst : 1 ≤ f.place.span.column)
    (hvisible : f.place.span.column < f.place.span.endColumn ∨ f.AtEmptyTarget raw)
    (hlast : f.place.span.endColumn ≤ 1 + Text.units raw) : f.PointsInto raw :=
  ⟨hfirst, hvisible, by omega, fun h => by omega⟩

theorem of_missing (hmissing : f.problem.IsMissing) (hfirst : 1 ≤ f.place.span.column)
    (hone : f.place.span.endColumn = f.place.span.column + 1)
    (hlast : f.place.span.column ≤ 1 + Text.units raw) : f.PointsInto raw :=
  ⟨hfirst, .inl (by omega), by omega, fun _ => hmissing⟩

end PointsInto

theorem pointsInto_value {raw : String} {p : Problem} {t : Token} {text : String} {mode : Grant}
    (ht : t ∈ Token.scan raw) (hassign : t.assignment? = some (mode.targetKey, text))
    (hempty : text = "" → p = .missingQubeName) :
    PointsInto ⟨p, .value t mode.targetKey text⟩ raw := by
  obtain ⟨hfirst, -, hlast⟩ := Token.within_scanFrom ht
  have hassigns : t.Assigns mode.targetKey text := Token.assignment?_eq_some_iff.mp hassign
  have hspan := Token.span_value hassigns
  have hend : t.endColumn = t.column + Text.units mode.targetKey + 1 + Text.units text := by
    rw [Place.span, Place.spanBy] at hspan
    have hend := congrArg Span.endColumn hspan
    exact hend.symm
  refine .of_within ?_ ?_ ?_
  · show 1 ≤ (Place.value t mode.targetKey text).span.column
    rw [hspan]
    show 1 ≤ t.column + Text.units mode.targetKey + 1
    omega
  · by_cases htext : text = ""
    · refine .inr ⟨t, ht, mode, ?_, hempty htext, ?_⟩
      · rw [hassigns.2, htext]
        exact String.append_empty
      · show (Place.value t mode.targetKey text).span = _
        have hzero : Text.units text = 0 := by rw [htext]; rfl
        rw [hspan, hend, hzero]
        simp
    · have hpos : 0 < Text.units text := by
        rw [Nat.pos_iff_ne_zero, Text.units, Ne, Text.width_eq_zero]
        exact fun hnil => htext (String.toList_eq_nil_iff.mp hnil)
      left
      show (Place.value t mode.targetKey text).span.column < (Place.value t _ text).span.endColumn
      rw [hspan]
      show t.column + Text.units mode.targetKey + 1 < t.endColumn
      omega
  · show (Place.value t mode.targetKey text).span.endColumn ≤ _
    rw [hspan]
    exact hlast

/-- **What can be told of the tokens of a line points into it.** -/
theorem Located.pointsInto {raw : String} {f : Finding} (h : f.Located (Token.scan raw)) :
    f.PointsInto raw := by
  cases h with
  | token ht _ =>
    obtain ⟨hfirst, hlt, hlast⟩ := Token.within_scanFrom ht
    exact .of_within hfirst (.inl hlt) hlast
  | all hall _ =>
    obtain ⟨hfirst, hlt, hlast⟩ := Token.within_all hall
    exact .of_within hfirst (.inl hlt) hlast
  | value ht hassign _ hempty => exact pointsInto_value ht hassign hempty
  | behind ht hmissing =>
    obtain ⟨hfirst, hlt, hlast⟩ := Token.within_scanFrom ht
    exact .of_missing hmissing (by exact Int.le_of_lt (Int.lt_of_le_of_lt hfirst hlt)) rfl hlast
  | start hmissing =>
    refine .of_missing hmissing (Int.le_refl 1) rfl ?_
    show (1 : Int) ≤ 1 + Text.units raw
    omega

end Finding

/-! ## columns of diagnostics -/

/-- The diagnostic says of a token `target=` or `default_target=` that it names no qube. It is where
the token ends, at no column. -/
def Diagnostic.TellsEmptyTarget (d : Diagnostic) (l : Line) : Prop :=
  ∃ t ∈ Token.scan l.raw, (t.value = "target=" ∨ t.value = "default_target=") ∧
    d = .make .invalidQubeName l.number ⟨t.endColumn, t.endColumn⟩ "Missing qube name"

theorem Finding.AtEmptyTarget.tells {f : Finding} {l : Line} (h : f.AtEmptyTarget l.raw) :
    (f.onLine l.number).TellsEmptyTarget l := by
  obtain ⟨t, ht, mode, hvalue, hproblem, hspan⟩ := h
  refine ⟨t, ht, ?_, ?_⟩
  · cases mode with
    | allow => exact .inl hvalue
    | ask => exact .inr hvalue
  · rw [onLine, hproblem, hspan]
    rfl

theorem Line.units_pos_of_rule {allowIncludes : Bool} {l : Line}
    (hl : l = Line.read allowIncludes l.number l.raw) {r : Rule} (hr : l.content = .rule r) :
    0 < Text.units l.raw := by
  rw [Nat.pos_iff_ne_zero, Text.units, Ne, Text.width_eq_zero]
  intro hnil
  rw [hl, Line.read, String.toList_eq_nil_iff.mp hnil] at hr
  cases hr

namespace PolicyFile

/-- What is told of a line of a file points into it, be it told by itself or by the lines before. -/
theorem exists_pointsInto {f : PolicyFile} {l : Line} (hl : l ∈ f.lines) {before : List Line}
    {d : Diagnostic} (hd : d ∈ l.reports before) :
    ∃ finding : Finding, finding.PointsInto l.raw ∧ d = finding.onLine l.number := by
  cases hkey : l.key? with
  | some key =>
    obtain ⟨k, -, rfl⟩ := (Line.mem_reports_of_key hkey).mp hd
    obtain ⟨r, hr, -⟩ := Line.key?_eq_some_iff.mp hkey
    have hpos := Line.units_pos_of_rule (read_of_mem_lines hl) hr
    refine ⟨⟨.duplicatesLine k.number, .line l.raw⟩, .of_within ?_ (.inl ?_) ?_, rfl⟩
    · exact Int.le_refl 1
    · show (1 : Int) < 1 + Text.units l.raw
      omega
    · exact Int.le_refl _
  | none =>
    rw [Line.reports_of_key?_eq_none hkey, read_of_mem_lines hl] at hd
    obtain ⟨finding, hlocated, rfl⟩ := Line.exists_of_mem_diagnostics hd
    exact ⟨finding, hlocated.pointsInto, rfl⟩

/-- **Every diagnostic points into its line.** It is about a line of the file, at columns that begin
with the first one and end with the text, or with the column behind it if a field or a path is
missing; and it is at one of them at least, unless it tells of a target of which nothing is
written. -/
theorem diagnostics_point_into_lines (f : PolicyFile) (d : Diagnostic) (hd : d ∈ f.diagnostics) :
    ∃ l ∈ f.lines, d.line = l.number ∧ 1 ≤ d.span.column ∧
      (d.span.column < d.span.endColumn ∨ d.TellsEmptyTarget l) ∧
      d.span.endColumn ≤ Text.units l.raw + 2 ∧
      (Text.units l.raw + 1 < d.span.endColumn →
        d.kind = .missingField ∨ d.kind = .missingIncludePath) := by
  obtain ⟨front, l, back, hlines, hreport⟩ := mem_diagnostics_iff.mp hd
  have hl : l ∈ f.lines := by simp [hlines]
  obtain ⟨finding, ⟨hfirst, hvisible, hlast, hmissing⟩, rfl⟩ := exists_pointsInto hl hreport
  exact ⟨l, hl, rfl, hfirst, hvisible.imp_right Finding.AtEmptyTarget.tells, hlast, hmissing⟩

def shortFile : PolicyFile := .ofText "30-user" true "qubes.Gpg * work\n"

def missingEnd : Diagnostic :=
  .make .missingField 1 ⟨17, 18⟩ "Missing destination, action"

theorem diagnostics_point_into_shortFile : missingEnd ∈ shortFile.diagnostics ∧
    ∃ l ∈ shortFile.lines, missingEnd.line = l.number ∧ 1 ≤ missingEnd.span.column ∧
      (missingEnd.span.column < missingEnd.span.endColumn ∨ missingEnd.TellsEmptyTarget l) ∧
      missingEnd.span.endColumn ≤ Text.units l.raw + 2 ∧
      (Text.units l.raw + 1 < missingEnd.span.endColumn →
        missingEnd.kind = .missingField ∨ missingEnd.kind = .missingIncludePath) := by
  have hmem : missingEnd ∈ shortFile.diagnostics := by decide +kernel
  exact ⟨hmem, diagnostics_point_into_lines shortFile missingEnd hmem⟩

/-- **An empty target is told of at no column**: the one diagnostic of this rule begins and ends
behind its equals sign. -/
theorem empty_target_points_nowhere :
    (ofText "30-user" true "qubes.Gpg * work vault allow target=\n").diagnostics =
      [.make .invalidQubeName 1 ⟨37, 37⟩ "Missing qube name"] ∧
    ¬∀ (name : String) (allowIncludes : Bool) (text : String),
      ∀ d ∈ (ofText name allowIncludes text).diagnostics,
        ∃ l ∈ (ofText name allowIncludes text).lines, d.line = l.number ∧ 1 ≤ d.span.column ∧
          d.span.column < d.span.endColumn ∧ d.span.endColumn ≤ Text.units l.raw + 2 := by
  have htold : (ofText "30-user" true "qubes.Gpg * work vault allow target=\n").diagnostics =
      [.make .invalidQubeName 1 ⟨37, 37⟩ "Missing qube name"] := by decide +kernel
  refine ⟨htold, fun h => ?_⟩
  obtain ⟨l, -, -, -, hlt, -⟩ := h "30-user" true "qubes.Gpg * work vault allow target=\n" _
    (htold ▸ List.mem_cons_self)
  exact absurd hlt (by decide)

end PolicyFile

end QubePolicy
