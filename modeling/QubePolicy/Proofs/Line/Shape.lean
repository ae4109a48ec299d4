import QubePolicy.Line
import QubePolicy.Proofs.Token.Words

/-!
# The shape of a line

A line is told apart by its first character that is not blank, its tokens are runs between
separators, and not every blank character separates.  The two agree where it matters: a first word
that begins with no blank character begins the trimmed line too.

* `trim_eq_cons`        trimming stops at the first character that is not blank;
* `head?_trim`, `getLast?_trim`   what is left begins and ends with such a character;
* `exists_trim_eq_cons` the trimmed line begins like the first word;
* `Token.scan_ne_nil`   and if anything is left of it there is a word;
* `Shape.ofRaw_eq_blank_iff`, `ofRaw_eq_comment_iff`   the two shapes without tokens;
* `Shape.ofRaw_eq_directive`, `ofRaw_eq_rule`   the shape read off the first word.
-/

namespace QubePolicy

/-! ## trimming -/

namespace Text

theorem trimEnd_cons {c : Char} (hc : isBlank c = false) (cs : List Char) :
    trimEnd (c :: cs) = c :: trimEnd cs := by
  have hstop : [c].dropWhile isBlank = [c] := by simp [hc]
  unfold trimEnd
  rw [List.reverse_cons, List.dropWhile_append, hstop]
  cases hrest : cs.reverse.dropWhile isBlank with
  | nil => rfl
  | cons d ds => simp

theorem trim_eq_cons {gap : List Char} (hgap : ∀ d ∈ gap, isBlank d = true) {c : Char}
    (hc : isBlank c = false) (cs : List Char) : trim (gap ++ c :: cs) = c :: trimEnd cs := by
  have hstop : (c :: cs).dropWhile isBlank = c :: cs := by simp [hc]
  rw [trim, List.dropWhile_append_of_pos hgap, hstop, trimEnd_cons hc]

theorem head?_trim {c : Char} {cs : List Char} (h : (trim cs).head? = some c) :
    isBlank c = false := by
  have hhead := List.head?_dropWhile_not isBlank cs
  unfold trim at h
  cases hrest : cs.dropWhile isBlank with
  | nil =>
    rw [hrest] at h
    cases h
  | cons d ds =>
    rw [hrest] at h hhead
    rw [trimEnd_cons hhead] at h
    exact Option.some.inj h ▸ hhead

theorem getLast?_trim {c : Char} {cs : List Char} (h : (trim cs).getLast? = some c) :
    isBlank c = false := by
  have hhead := List.head?_dropWhile_not isBlank (cs.dropWhile isBlank).reverse
  rw [trim, trimEnd, List.getLast?_reverse] at h
  rw [h] at hhead
  exact hhead

theorem mem_of_mem_trim {c : Char} {cs : List Char} (h : c ∈ trim cs) : c ∈ cs := by
  have h' : c ∈ cs.dropWhile isBlank := by
    simpa using List.dropWhile_subset isBlank (List.mem_reverse.mp h)
  exact List.dropWhile_subset isBlank h'

theorem trimmed_eq_iff {s t : String} : trimmed s = t ↔ trim s.toList = t.toList := by
  rw [trimmed, ← String.toList_inj, String.toList_ofList]

end Text

theorem Token.exists_trim_eq_cons {raw w : String} {ws : List String} (h : words raw = w :: ws)
    {c : Char} {cs : List Char} (hw : w.toList = c :: cs) (hc : Text.isBlank c = false) :
    ∃ rest, Text.trim raw.toList = c :: rest := by
  obtain ⟨gap, rest, hgap, hraw⟩ := exists_of_words_eq_cons h
  rw [hraw, hw, List.cons_append]
  exact ⟨_, Text.trim_eq_cons (fun d hd => Text.isBlank_of_isSeparator (hgap d hd)) hc _⟩

theorem Token.scan_ne_nil {raw : String} (h : Text.trim raw.toList ≠ []) : scan raw ≠ [] := by
  obtain ⟨c, cs, hcs⟩ := List.exists_cons_of_ne_nil h
  have hblank : Text.isBlank c = false := Text.head?_trim (by rw [hcs, List.head?_cons])
  intro hnil
  have hgap := scanFrom_eq_nil hnil c (Text.mem_of_mem_trim (hcs ▸ List.mem_cons_self))
  rw [Text.isBlank_of_isSeparator hgap] at hblank
  cases hblank

/-! ## shapes -/

namespace Shape

theorem ofRaw_eq_blank_iff {raw : String} : ofRaw raw = .blank ↔ Text.trimmed raw = "" := by
  rw [Text.trimmed_eq_iff, String.toList_empty, ofRaw]
  cases Text.trim raw.toList with
  | nil => simp
  | cons c cs => split <;> simp_all

theorem ofRaw_eq_comment_iff {raw text : String} : ofRaw raw = .comment text ↔
    ∃ rest, Text.trimmed raw = "#" ++ rest ∧ text = Text.trimmed rest := by
  constructor
  · intro h
    unfold ofRaw at h
    split at h
    · cases h
    · next rest hrest =>
      injection h with h
      refine ⟨String.ofList rest, ?_, by rw [← h, Text.trimmed, String.toList_ofList]⟩
      rw [Text.trimmed_eq_iff, hrest]
      simp
    · cases h
    · cases h
  · rintro ⟨rest, hraw, rfl⟩
    have hcs : Text.trim raw.toList = '#' :: rest.toList := by
      rw [Text.trimmed_eq_iff.mp hraw]
      simp
    rw [ofRaw, hcs]
    rfl

theorem ofRaw_eq_directive {raw w : String} {ws : List String} (h : Token.words raw = w :: ws)
    {cs : List Char} (hw : w.toList = '!' :: cs) : ofRaw raw = .directive (Token.scan raw) := by
  obtain ⟨rest, hrest⟩ := Token.exists_trim_eq_cons h hw (by decide)
  rw [ofRaw, hrest]
  rfl

theorem ofRaw_eq_rule {raw w : String} {ws : List String} (h : Token.words raw = w :: ws)
    {c : Char} {cs : List Char} (hw : w.toList = c :: cs) (hc : Text.isBlank c = false)
    (hcomment : c ≠ '#') (hdirective : c ≠ '!') : ofRaw raw = .rule (Token.scan raw) := by
  obtain ⟨rest, hrest⟩ := Token.exists_trim_eq_cons h hw hc
  rw [ofRaw, hrest]
  split <;> simp_all

theorem tokens_of_ofRaw_eq_directive {raw : String} {tokens : List Token}
    (h : ofRaw raw = .directive tokens) : tokens = Token.scan raw := by
  unfold ofRaw at h
  split at h
  · cases h
  · cases h
  · injection h with h
    exact h.symm
  · cases h

theorem tokens_of_ofRaw_eq_rule {raw : String} {tokens : List Token}
    (h : ofRaw raw = .rule tokens) : tokens = Token.scan raw := by
  unfold ofRaw at h
  split at h
  · cases h
  · cases h
  · cases h
  · injection h with h
    exact h.symm

theorem scan_ne_nil_of_ofRaw {raw : String} (h : ofRaw raw ≠ .blank) : Token.scan raw ≠ [] :=
  Token.scan_ne_nil fun hnil => h (ofRaw_eq_blank_iff.mpr (Text.trimmed_eq_iff.mpr hnil))

end Shape

end QubePolicy
