import QubePolicy.PolicyFile.Validation
import QubePolicy.Proofs.PolicyFile.Edits

/-!
# A file read back from its text

A line at the end that is empty and has no line feed leaves no trace in the text; apart from that a
file whose raw lines are lines is read back as it is.

* `PolicyFile.text_ofText`   a file that is read from a text has that text;
* `PolicyFile.linesOf_joinWith_feed`, `linesOf_joinWith`   lines that are written are read back;
* `PolicyFile.raws_reload_eq`   the raw lines of a file that is read back;
* `PolicyFile.lines_reload`  its lines;
* `PolicyFile.rules_reload`, `diagnostics_reload`, `canSave_reload`   its rules, with their numbers,
                             and what is told of it;
* `PolicyFile.round_trip`    a text is kept, and so is a file after any edits.
-/

namespace QubePolicy

/-! ## parts -/

theorem Text.joinWith_concat (sep : Char) {parts : List (List Char)} (hne : parts ≠ [])
    (part : List Char) : joinWith sep (parts ++ [part]) = joinWith sep parts ++ sep :: part := by
  induction parts with
  | nil => exact absurd rfl hne
  | cons first rest ih =>
    cases rest with
    | nil => rfl
    | cons second rest =>
      have hrest := List.cons_ne_nil second rest
      rw [List.cons_append, joinWith_cons sep first (List.append_ne_nil_of_left_ne_nil hrest [part]),
        ih hrest, joinWith_cons sep first hrest, List.append_assoc, List.cons_append]

theorem Text.getLast?_joinWith (sep : Char) (parts : List (List Char)) {last : List Char}
    (hlast : last ≠ []) : (joinWith sep (parts ++ [last])).getLast? = last.getLast? := by
  by_cases hne : parts = []
  · rw [hne, List.nil_append, joinWith_singleton]
  · rw [joinWith_concat sep hne, List.getLast?_append, List.getLast?_cons_of_ne_nil hlast]
    cases h : last.getLast? with
    | none => exact absurd (List.getLast?_eq_none_iff.mp h) hlast
    | some c => rfl

namespace PolicyFile

theorem linesOf_joinWith_feed {parts : List (List Char)} (hne : parts ≠ [])
    (hparts : ∀ part ∈ parts, '\n' ∉ part) :
    linesOf (Text.joinWith '\n' parts ++ ['\n']) = (parts, true) := by
  unfold linesOf
  rw [if_neg (by simp), if_pos (by simp), List.dropLast_concat, Text.splitAt_joinWith hne hparts]

theorem linesOf_joinWith {parts : List (List Char)} {last : List Char} (hlast : last ≠ [])
    (hparts : ∀ part ∈ parts ++ [last], '\n' ∉ part) :
    linesOf (Text.joinWith '\n' (parts ++ [last])) = (parts ++ [last], false) := by
  have hgetLast := Text.getLast?_joinWith '\n' parts hlast
  have hnil : Text.joinWith '\n' (parts ++ [last]) ≠ [] := by
    intro hnil
    rw [hnil] at hgetLast
    exact hlast (List.getLast?_eq_none_iff.mp hgetLast.symm)
  have hfeed : (Text.joinWith '\n' (parts ++ [last])).getLast? ≠ some '\n' := by
    rw [hgetLast]
    intro hfeed
    exact hparts last (by simp) (List.mem_of_getLast? hfeed)
  unfold linesOf
  rw [if_neg hnil, if_neg hfeed, Text.splitAt_joinWith (by simp) hparts]

/-! ## files -/

variable {f : PolicyFile}

theorem raws_ofText {name : String} {allowIncludes : Bool} {text : String}
    {parts : List (List Char)} {feed : Bool} (h : linesOf text.toList = (parts, feed)) :
    (ofText name allowIncludes text).raws = parts.map String.ofList := by
  unfold ofText
  rw [h]

theorem map_ofList_toList (raws : List String) :
    (raws.map String.toList).map String.ofList = raws := by
  have hid : String.ofList ∘ String.toList = id := funext fun _ => String.ofList_toList
  rw [List.map_map, hid, List.map_id]

theorem Plain.parts (h : f.Plain) : ∀ part ∈ f.raws.map String.toList, '\n' ∉ part := by
  intro part hpart
  obtain ⟨raw, hraw, rfl⟩ := List.mem_map.mp hpart
  exact h raw hraw

theorem toList_text (hne : f.raws ≠ []) : f.text.toList =
    Text.joinWith '\n' (f.raws.map String.toList) ++ if f.endsWithFeed then ['\n'] else [] := by
  unfold text
  split
  · next hnil => exact absurd hnil hne
  · exact String.toList_ofList

/-- **A file that is read from a text has that text.** -/
theorem text_ofText (name : String) (allowIncludes : Bool) (text : String) :
    (ofText name allowIncludes text).text = text := by
  have hfile {parts : List (List Char)} {feed : Bool} (hlines : linesOf text.toList = (parts, feed))
      (hne : parts ≠ []) : (ofText name allowIncludes text).text.toList =
        Text.joinWith '\n' parts ++ if feed then ['\n'] else [] := by
    have hraws : (ofText name allowIncludes text).raws = parts.map String.ofList :=
      raws_ofText hlines
    have hfeed : (ofText name allowIncludes text).endsWithFeed = feed := by rw [ofText, hlines]
    have hparts : (parts.map String.ofList).map String.toList = parts := by
      have hid : String.toList ∘ String.ofList = id := funext fun _ => String.toList_ofList
      rw [List.map_map, hid, List.map_id]
    rw [toList_text (by simpa [hraws] using hne), hraws, hfeed, hparts]
  rw [← String.toList_inj]
  by_cases hnil : text.toList = []
  · rw [String.toList_eq_nil_iff.mp hnil]
    rfl
  by_cases hlast : text.toList.getLast? = some '\n'
  · obtain ⟨body, hbody⟩ := List.getLast?_eq_some_iff.mp hlast
    have hlines : linesOf text.toList = (Text.splitAt '\n' text.toList.dropLast, true) := by
      rw [linesOf, if_neg hnil, if_pos hlast]
    rw [hfile hlines (Text.splitAt_ne_nil _ _), Text.joinWith_splitAt, hbody, List.dropLast_concat,
      if_pos rfl]
  · have hlines : linesOf text.toList = (Text.splitAt '\n' text.toList, false) := by
      rw [linesOf, if_neg hnil, if_neg hlast]
    rw [hfile hlines (Text.splitAt_ne_nil _ _), Text.joinWith_splitAt, if_neg Bool.false_ne_true,
      List.append_nil]

theorem raws_reload_of_feed (h : f.Plain) (hfeed : f.endsWithFeed = true) :
    (f.withText f.text).raws = f.raws := by
  by_cases hne : f.raws = []
  · have htext : f.text = "" := by rw [text, hne]
    rw [withText, htext, hne]
    rfl
  · have hlines : linesOf f.text.toList = (f.raws.map String.toList, true) := by
      rw [toList_text hne, hfeed, if_pos rfl]
      exact linesOf_joinWith_feed (by simpa using hne) h.parts
    rw [withText, raws_ofText hlines, map_ofList_toList]

theorem raws_reload_of_last (h : f.Plain) (hfeed : f.endsWithFeed = false) {init : List String}
    {last : String} (hraws : f.raws = init ++ [last]) (hlast : last ≠ "") :
    (f.withText f.text).raws = f.raws := by
  have hlast' : last.toList ≠ [] := fun hnil => hlast (String.toList_eq_nil_iff.mp hnil)
  have hparts := h.parts
  rw [hraws, List.map_append, List.map_singleton] at hparts
  have hlines : linesOf f.text.toList = (f.raws.map String.toList, false) := by
    rw [toList_text (by simp [hraws]), hfeed, if_neg Bool.false_ne_true, List.append_nil, hraws,
      List.map_append, List.map_singleton]
    exact linesOf_joinWith hlast' hparts
  rw [withText, raws_ofText hlines, map_ofList_toList]

/-- An empty last line is lost, for its text is the line feed that ends the line before it. -/
theorem raws_reload_of_lost (h : f.Plain) (hfeed : f.endsWithFeed = false) {init : List String}
    (hraws : f.raws = init ++ [""]) : (f.withText f.text).raws = init := by
  have hchars : f.text.toList = Text.joinWith '\n' (init.map String.toList ++ [[]]) := by
    rw [toList_text (by simp [hraws]), hfeed, hraws]
    simp
  by_cases hinit : init = []
  · have hlines : linesOf f.text.toList = ([], true) := by
      rw [hchars, hinit]
      rfl
    rw [withText, raws_ofText hlines, hinit]
    rfl
  · have hplain : ∀ part ∈ init.map String.toList, '\n' ∉ part := fun part hpart =>
      h.parts part (by rw [hraws, List.map_append]; exact List.mem_append_left _ hpart)
    have hlines : linesOf f.text.toList = (init.map String.toList, true) := by
      rw [hchars, Text.joinWith_concat '\n' (by simpa using hinit)]
      exact linesOf_joinWith_feed (by simpa using hinit) hplain
    rw [withText, raws_ofText hlines, map_ofList_toList]

/-- **All raw lines are read back**, but for an empty one at the end without a line feed. -/
theorem raws_reload_eq (h : f.Plain) : (f.withText f.text).raws =
    if f.endsWithFeed = false ∧ f.raws.getLast? = some "" then f.raws.dropLast else f.raws := by
  cases hfeed : f.endsWithFeed with
  | true => rw [raws_reload_of_feed h hfeed, if_neg (by simp)]
  | false =>
    rcases List.eq_nil_or_concat f.raws with hnil | ⟨init, last, hraws⟩
    · have htext : f.text = "" := by rw [text, hnil]
      rw [withText, htext, hnil]
      rfl
    · rw [List.concat_eq_append] at hraws
      by_cases hlast : last = ""
      · rw [hlast] at hraws
        rw [raws_reload_of_lost h hfeed hraws, if_pos (by simp [hraws]), hraws,
          List.dropLast_concat]
      · rw [raws_reload_of_last h hfeed hraws hlast, if_neg (by simp [hraws, hlast])]

theorem raws_reload (h : f.Plain) : (f.withText f.text).raws = f.raws ∨
    f.endsWithFeed = false ∧ f.raws = (f.withText f.text).raws ++ [""] := by
  rw [raws_reload_eq h]
  split
  · next hlost =>
    obtain ⟨hfeed, hlast⟩ := hlost
    obtain ⟨init, hraws⟩ := List.getLast?_eq_some_iff.mp hlast
    exact .inr ⟨hfeed, by rw [hraws, List.dropLast_concat]⟩
  · exact .inl rfl

/-- A file that is read back has the same lines, or all but an empty one at the end. -/
theorem lines_reload (h : f.Plain) : f.lines = (f.withText f.text).lines ∨
    ∃ number, f.lines = (f.withText f.text).lines ++ [⟨"", number, .blank⟩] := by
  unfold lines
  rw [show (f.withText f.text).allowIncludes = f.allowIncludes from rfl]
  rcases raws_reload h with hraws | ⟨-, hraws⟩
  · rw [hraws]
    exact .inl rfl
  · right
    refine ⟨1 + (f.withText f.text).raws.length, ?_⟩
    rw [hraws, Line.readFrom_append]
    rfl

theorem mem_lines_of_reload (h : f.Plain) {l : Line} (hl : l ∈ (f.withText f.text).lines) :
    l ∈ f.lines := by
  rcases lines_reload h with hlines | ⟨number, hlines⟩
  · rwa [hlines]
  · rw [hlines]
    exact List.mem_append_left _ hl

/-- **The rules of a file are read back**, with their numbers. -/
theorem rules_reload (h : f.Plain) : (f.withText f.text).rules = f.rules := by
  unfold rules
  rcases lines_reload h with hlines | ⟨number, hlines⟩
  · rw [hlines]
  · rw [hlines, List.filterMap_append]
    simp

theorem diagnosticsFrom_concat_blank (seen : List (String × Nat)) (ls : List Line) {l : Line}
    (hl : l.content = .blank) : diagnosticsFrom seen (ls ++ [l]) = diagnosticsFrom seen ls := by
  induction ls generalizing seen with
  | nil => simp [diagnosticsFrom, hl, Line.diagnostics]
  | cons m ls ih =>
    rw [List.cons_append, diagnosticsFrom, diagnosticsFrom]
    cases m.content with
    | rule r =>
      simp only
      rw [ih, ih]
    | _ => exact congrArg (m.diagnostics ++ ·) (ih seen)

theorem diagnostics_reload (h : f.Plain) : (f.withText f.text).diagnostics = f.diagnostics := by
  unfold diagnostics
  rcases lines_reload h with hlines | ⟨number, hlines⟩
  · rw [hlines]
  · rw [hlines, diagnosticsFrom_concat_blank [] _ rfl]

theorem canSave_reload (h : f.Plain) : (f.withText f.text).canSave = f.canSave := by
  unfold canSave
  rcases lines_reload h with hlines | ⟨number, hlines⟩
  · rw [hlines]
  · rw [hlines, List.all_append]
    simp [Content.isMalformed]

/-- **A text is kept, and so is a file.** A file that is read from a text has that text; and after
any edits it is read back from its own text, with the same rules, the same diagnostics and the same
raw lines, but for an empty one at the end that no line feed ends. -/
theorem round_trip (name : String) (allowIncludes : Bool) (text : String) :
    (ofText name allowIncludes text).text = text ∧
    ∀ es : List Edit,
      let f := (ofText name allowIncludes text).editAll es
      let g := ofText f.name f.allowIncludes f.text
      g.text = f.text ∧ g.rules = f.rules ∧ g.diagnostics = f.diagnostics ∧
      g.canSave = f.canSave ∧
      g.raws = if f.endsWithFeed = false ∧ f.raws.getLast? = some "" then f.raws.dropLast
        else f.raws := by
  refine ⟨text_ofText name allowIncludes text, fun es => ?_⟩
  intro f g
  have hplain : f.Plain := plain_editAll (plain_ofText name allowIncludes text) es
  exact ⟨text_ofText _ _ _, rules_reload hplain, diagnostics_reload hplain, canSave_reload hplain,
    raws_reload_eq hplain⟩

end PolicyFile

end QubePolicy
