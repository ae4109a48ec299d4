import QubePolicy.Proofs.PolicyFile.Errors
import QubePolicy.Proofs.PolicyFile.FieldEdits
import QubePolicy.Proofs.Session.Preview

/-!
# Edits of a field of an open file

A field of a rule is edited in the text of its line, and the line is read anew, whatever it says
then.

* `Session.exists_of_editField`   the line that is edited, and the one it becomes;
* `Session.editField_exact`       only the edited part of the file is another one;
* `Session.editField_kind`        the line is a rule still, or malformed, unless its service begins
                                  like a comment.
-/

namespace QubePolicy

open Token (Exchanged Continued words)

namespace Session

variable {s s' : Session} {name : String} {index : Number} {field : Rule.Field} {value : String}
  {ds : List Diagnostic}

/-- **An edit of a field puts one file in place**, with the line of a rule read anew. -/
theorem exists_of_editField (h : s.edit name (·.editField index field value) = (.ok ds, s')) :
    ∃ o g i l r raw, s.find? name = some o ∧ s'.find? name = some { o with file := g } ∧
      ds = g.diagnostics ∧ index.toNat? = some i ∧ o.file.line? i = some l ∧ l.content = .rule r ∧
      PolicyFile.withField l.raw field value = .ok raw ∧
      g.line? i = some (Line.read o.file.allowIncludes l.number raw) ∧
      ∀ j, j ≠ i → g.line? j = o.file.line? j := by
  obtain ⟨o, g, ho, hg, rfl, rfl⟩ := edit_eq_ok h
  obtain ⟨i, l, r, raw, hi, hl, hr, hraw, hline, hothers⟩ := PolicyFile.editField_lines hg
  have hname : g.name = name := (PolicyFile.keeps_editField hg).name.trans (name_of_find? ho)
  exact ⟨o, g, i, l, r, raw, ho, find?_put_self s hname, rfl, hi, hl, hr, hraw, hline, hothers⟩

/-- **An edit of a field changes only the edited part.** One token of the line is exchanged, or what
is behind its action word, and so are its words; a specifier that may stand in its field makes the
line the rule with it. The other lines are as they were. -/
theorem editField_exact (h : s.edit name (·.editField index field value) = (.ok ds, s')) :
    ∃ o g i l l' r, s.find? name = some o ∧ s'.find? name = some { o with file := g } ∧
      index.toNat? = some i ∧ o.file.line? i = some l ∧ l.content = .rule r ∧
      g.line? i = some l' ∧ l'.number = l.number ∧
      (∀ k, field.index? = some k → Exchanged k value l.raw l'.raw ∧
        words l'.raw = (words l.raw).set k value) ∧
      (field = .parameters → Continued 4 (Text.trimmed value) l.raw l'.raw ∧
        words l'.raw = (words l.raw).take 5 ++ words (Text.trimmed value)) ∧
      (∀ r', r.respecified? value field = some r' → l'.content = .rule r') ∧
      ∀ j, j ≠ i → g.line? j = o.file.line? j := by
  obtain ⟨o, g, i, l, r, raw, ho, hg, -, hi, hl, hr, hraw, hline, hothers⟩ := exists_of_editField h
  have hrule : r.Spelled (words l.raw) := PolicyFile.spelled_of_line? hl hr
  refine ⟨o, g, i, l, _, r, ho, hg, hi, hl, hr, hline, rfl, ?_, ?_, ?_, hothers⟩
  · intro k hk
    exact (PolicyFile.withField_index hk hrule hraw).2
  · rintro rfl
    exact PolicyFile.withField_continued hrule.four_lt_length hraw
  · intro r' hr'
    exact PolicyFile.withField_respecified hrule hraw hr'

/-- **An edited line is a rule still, or malformed**, unless the value for its service begins like a
comment, which makes it one. A specifier that may not stand in its field makes it malformed, and
then the file has an error and may not be saved. -/
theorem editField_kind (h : s.edit name (·.editField index field value) = (.ok ds, s')) :
    ∃ o g i l l' r, s.find? name = some o ∧ s'.find? name = some { o with file := g } ∧
      index.toNat? = some i ∧ o.file.line? i = some l ∧ l.content = .rule r ∧
      g.line? i = some l' ∧
      ((∃ text, l'.content = .comment text) ↔ field.hides value = true) ∧
      (field.hides value = false →
        (∃ r', l'.content = .rule r') ∨ l'.content.isMalformed = true) ∧
      (field.hides value = false → field.isSpecifier = true → r.respecified? value field = none →
        l'.content.isMalformed = true ∧ g.canSave = false ∧ ds.any Diagnostic.isError = true) := by
  obtain ⟨o, g, i, l, r, raw, ho, hg, rfl, hi, hl, hr, hraw, hline, -⟩ := exists_of_editField h
  have hrule : r.Spelled (words l.raw) := PolicyFile.spelled_of_line? hl hr
  obtain ⟨hcomment, hother⟩ := PolicyFile.withField_keeps hrule hraw
  refine ⟨o, g, i, l, _, r, ho, hg, hi, hl, hr, hline, hcomment, hother, ?_⟩
  intro hhides hfield hnone
  have hmalformed : (Line.read o.file.allowIncludes l.number raw).content.isMalformed = true :=
    PolicyFile.withField_refused hrule hraw hfield hnone hhides
  have hcan : g.canSave = false := by
    rw [← Bool.not_eq_true, PolicyFile.canSave_iff]
    intro hall
    rw [hall _ (List.mem_of_getElem? hline)] at hmalformed
    cases hmalformed
  exact ⟨hmalformed, hcan, by rw [PolicyFile.any_isError_diagnostics, hcan]; rfl⟩

end Session

namespace Workspace

/-! ## a file with one rule -/

def fileSession (text : String) : Session :=
  ((policySession none [("30-user.policy", .file (Text.Utf8.encode text))]).run
    [.command () (.open "30-user" none)]).sessions ()

/-- A rule with blanks and tabs between its tokens, and a character of two units in front of
most. -/
def spacedText : String := "# mail\n\tqubes.Gpg +😀  work\tvault ask default_target=gpg"

def spacedRule (source : QubeSpecifier) : Rule :=
  ⟨.name "qubes.Gpg", .specific "😀", source, .literal "vault",
    .grant .ask (some (.literal "gpg")) []⟩

def spacedLine : Line :=
  ⟨"\tqubes.Gpg +😀  work\tvault ask default_target=gpg", 2, .rule (spacedRule (.literal "work"))⟩

theorem line?_spacedText {o : OpenFile} (ho : (fileSession spacedText).find? "30-user" = some o) :
    o.file.line? 1 = some spacedLine := by
  have hfile : ((fileSession spacedText).find? "30-user").map (·.file.line? 1) =
      some (some spacedLine) := by
    decide +kernel
  rw [ho, Option.map_some] at hfile
  exact Option.some.inj hfile

theorem editField_exact_spaced :
    ∃ (ds : List Diagnostic) (s' : Session) (o : OpenFile) (g : PolicyFile) (l' : Line),
    (fileSession spacedText).edit "30-user" (·.editField (.whole 1) .source "@tag:mail") =
      (.ok ds, s') ∧
    s'.find? "30-user" = some { o with file := g } ∧ g.line? 1 = some l' ∧
    Exchanged 2 "@tag:mail" spacedLine.raw l'.raw ∧
    words l'.raw = ["qubes.Gpg", "+😀", "@tag:mail", "vault", "ask", "default_target=gpg"] ∧
    l'.content = .rule (spacedRule (.tag "mail")) ∧ g.line? 0 = o.file.line? 0 := by
  have hok : ((fileSession spacedText).edit "30-user"
      (·.editField (.whole 1) .source "@tag:mail")).1.isOk = true := by
    decide +kernel
  obtain ⟨ds, s', hedit⟩ := Except.exists_of_isOk hok
  obtain ⟨o, g, i, l, l', r, ho, hg, hi, hl, hr, hl', -, htoken, -, hrule, hothers⟩ :=
    Session.editField_exact hedit
  cases hi
  rw [line?_spacedText ho] at hl
  cases hl
  cases hr
  obtain ⟨hexchanged, hwords⟩ := htoken 2 rfl
  have hold : words spacedLine.raw =
      ["qubes.Gpg", "+😀", "work", "vault", "ask", "default_target=gpg"] := by
    decide +kernel
  have hread : (spacedRule (.literal "work")).respecified? "@tag:mail" .source =
      some (spacedRule (.tag "mail")) := by
    decide +kernel
  exact ⟨ds, s', o, g, l', hedit, hg, hl', hexchanged, by rw [hwords, hold]; rfl, hrule _ hread,
    hothers 0 (by decide)⟩

theorem editField_kind_spaced :
    ∃ (ds : List Diagnostic) (s' : Session) (o : OpenFile) (g : PolicyFile) (l' : Line),
    (fileSession spacedText).edit "30-user" (·.editField (.whole 1) .source "@default") =
      (.ok ds, s') ∧
    s'.find? "30-user" = some { o with file := g } ∧ g.line? 1 = some l' ∧
    l'.content.isMalformed = true ∧ g.canSave = false ∧ ds.any Diagnostic.isError = true := by
  have hok : ((fileSession spacedText).edit "30-user"
      (·.editField (.whole 1) .source "@default")).1.isOk = true := by
    decide +kernel
  obtain ⟨ds, s', hedit⟩ := Except.exists_of_isOk hok
  obtain ⟨o, g, i, l, l', r, ho, hg, hi, hl, hr, hl', -, -, hrefused⟩ :=
    Session.editField_kind hedit
  cases hi
  rw [line?_spacedText ho] at hl
  cases hl
  cases hr
  exact ⟨ds, s', o, g, l', hedit, hg, hl', hrefused rfl rfl (by decide +kernel)⟩

/-- **A service that begins like a comment takes the rule away**, without a diagnostic: the file may
be saved without it. -/
theorem editField_hides_rule : ∃ ds s' o o' r,
    (fileSession "qubes.Gpg * work vault deny\n").find? "30-user" = some o ∧
    (o.file.line? 0).map Line.content = some (.rule r) ∧
    (fileSession "qubes.Gpg * work vault deny\n").edit "30-user"
      (·.editField (.whole 0) .service "#off") = (.ok ds, s') ∧
    s'.find? "30-user" = some o' ∧
    (o'.file.line? 0).map Line.content = some (.comment "off * work vault deny") ∧
    ds = [] ∧ o'.file.canSave = true := by
  have hbefore : ((fileSession "qubes.Gpg * work vault deny\n").find? "30-user").any (fun o =>
      (o.file.line? 0).map Line.content = some (.rule (gpgRule .deny))) = true := by
    decide +kernel
  let edited := (fileSession "qubes.Gpg * work vault deny\n").edit "30-user"
    (·.editField (.whole 0) .service "#off")
  obtain ⟨hds, hafter⟩ : edited.1.toOption = some [] ∧
      (edited.2.find? "30-user").any (fun o' => o'.file.canSave ∧
        (o'.file.line? 0).map Line.content = some (.comment "off * work vault deny")) = true := by
    decide +kernel
  obtain ⟨o, ho, hrule⟩ := (Option.any_eq_true _ _).mp hbefore
  obtain ⟨o', ho', hrest⟩ := (Option.any_eq_true _ _).mp hafter
  obtain ⟨hcan, hcomment⟩ := of_decide_eq_true hrest
  have hedit : edited = (.ok [], edited.2) :=
    Prod.ext (Except.toOption_eq_some_iff.mp hds) rfl
  exact ⟨[], edited.2, o, o', gpgRule .deny, ho, of_decide_eq_true hrule, hedit, ho', hcomment, rfl,
    hcan⟩

end Workspace

end QubePolicy
