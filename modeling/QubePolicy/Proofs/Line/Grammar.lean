import QubePolicy.Proofs.Line.Shape
import QubePolicy.Proofs.Rule.Spelling

/-!
# The grammar of lines

What a line says is told by its text and the words in it, and every line says one thing.

* `Content.ofDirective_eq_includes_iff`   two words make an include, where includes are allowed;
* `Content.Warranted`                     what a line has to be to say something, and a reason where
                                          it says nothing valid;
* `Content.read_eq_rule_iff`              a line is a rule when its words spell the rule;
* `Content.read_of_first`                 what a line of many words can be, told by its first character;
* `Line.content_read_iff`                 all five kinds of lines.
-/

namespace QubePolicy

/-! ## directives -/

namespace Directive

theorem ofWord?_eq_some_iff {s : String} {d : Directive} : ofWord? s = some d ↔ s = d.word := by
  unfold ofWord?
  constructor
  · intro h
    split at h
    · next hs => cases h; exact hs
    · split at h
      · next hs => cases h; exact hs
      · cases h
  · rintro rfl
    cases d with
    | file => rfl
    | directory => rfl

theorem word_toList (d : Directive) : ∃ cs, d.word.toList = '!' :: cs := by
  cases d with
  | file => exact ⟨_, rfl⟩
  | directory => exact ⟨_, rfl⟩

variable {allowIncludes : Bool}

theorem readWord_eq_valid_iff {t : Token} {d : Directive} :
    readWord allowIncludes t = .valid d ↔ t.value = d.word ∧ allowIncludes = true := by
  unfold readWord
  constructor
  · intro h
    split at h
    · cases h
    · next d' hd' =>
      split at h
      · next hallow =>
        cases Checked.pure_eq_valid_iff.mp h
        exact ⟨ofWord?_eq_some_iff.mp hd', hallow⟩
      · cases h
  · rintro ⟨hword, hallow⟩
    rw [ofWord?_eq_some_iff.mpr hword]
    exact if_pos hallow

theorem readPath_eq_valid_iff {keyword : Token} {ts : List Token} {path : String} :
    readPath keyword ts = .valid path ↔ ts.map Token.value = [path] := by
  match ts with
  | [] => simp [readPath, Checked.ofExcept]
  | [t] => simp [readPath, Checked.pure_eq_valid_iff]
  | t :: u :: extra => simp [readPath]

theorem reasoned_readWord (allowIncludes : Bool) (t : Token) :
    (readWord allowIncludes t).Reasoned := by
  unfold readWord
  split
  · exact Checked.reasoned_ofExcept _ _
  · split
    · exact Checked.reasoned_valid _
    · exact Checked.reasoned_ofExcept _ _

theorem reasoned_readPath (keyword : Token) (ts : List Token) :
    (readPath keyword ts).Reasoned := by
  match ts with
  | [] => simp [Checked.Reasoned, readPath, Checked.ofExcept]
  | [t] => exact Checked.reasoned_valid _
  | t :: u :: extra => simp [Checked.Reasoned, readPath]

end Directive

/-! ## shapes and contents -/

theorem ServiceSpecifier.WellFormed.exists_first {s : ServiceSpecifier} (hs : s.WellFormed) :
    ∃ c cs, s.render.toList = c :: cs ∧ Text.isBlank c = false ∧ c ≠ '#' ∧ c ≠ '!' := by
  obtain ⟨c, cs, hc, hfirst⟩ := hs.exists_toList
  refine ⟨c, cs, hc, ?_⟩
  rcases hfirst with rfl | hword
  · decide
  · have hblanks : Text.blanks.any Text.isWordChar = false := by decide
    refine ⟨?_, ?_, ?_⟩
    · by_contra hblank
      rw [Bool.not_eq_false, Text.isBlank, List.contains_iff_mem] at hblank
      exact List.any_eq_false.mp hblanks c hblank hword
    · rintro rfl
      exact absurd hword (by decide)
    · rintro rfl
      exact absurd hword (by decide)

namespace Content

variable {allowIncludes : Bool}

theorem ofDirective_eq_includes_iff {tokens : List Token} {d : Directive} {path : String} :
    ofDirective allowIncludes tokens = .includes d path ↔
      tokens.map Token.value = [d.word, path] ∧ allowIncludes = true := by
  cases tokens with
  | nil => simp [ofDirective]
  | cons keyword ts =>
    have hvalid : Content.includes <$> Directive.readWord allowIncludes keyword <*>
        Directive.readPath keyword ts = .valid (.includes d path) ↔
        (keyword :: ts).map Token.value = [d.word, path] ∧ allowIncludes = true := by
      simp only [Checked.apply_eq_valid_iff, Checked.map_eq_valid_iff]
      constructor
      · rintro ⟨_, p, ⟨d', hd', rfl⟩, hp, heq⟩
        cases heq
        obtain ⟨hword, hallow⟩ := Directive.readWord_eq_valid_iff.mp hd'
        rw [List.map_cons, hword, Directive.readPath_eq_valid_iff.mp hp]
        exact ⟨rfl, hallow⟩
      · rintro ⟨hwords, hallow⟩
        obtain ⟨hword, hpath⟩ := List.cons.inj hwords
        exact ⟨_, path, ⟨d, Directive.readWord_eq_valid_iff.mpr ⟨hword, hallow⟩, rfl⟩,
          Directive.readPath_eq_valid_iff.mpr hpath, rfl⟩
    rw [← hvalid, ofDirective]
    cases Content.includes <$> Directive.readWord allowIncludes keyword <*>
        Directive.readPath keyword ts with
    | valid c => simp
    | invalid fs => simp

theorem ofRule_eq_rule_iff {tokens : List Token} {r : Rule} :
    ofRule tokens = .rule r ↔ Rule.read tokens = .valid r := by
  unfold ofRule
  cases Rule.read tokens with
  | valid r' => simp
  | invalid fs => simp

theorem ofDirective_cases (allowIncludes : Bool) {tokens : List Token} (hne : tokens ≠ []) :
    (∃ d path, ofDirective allowIncludes tokens = .includes d path) ∨
      ∃ fs, ofDirective allowIncludes tokens = .malformed fs ∧ fs ≠ [] := by
  obtain ⟨keyword, ts, rfl⟩ := List.exists_cons_of_ne_nil hne
  have hreasoned := ((Directive.reasoned_readWord allowIncludes keyword).map
    Content.includes).apply (Directive.reasoned_readPath keyword ts)
  rw [ofDirective]
  cases h : Content.includes <$> Directive.readWord allowIncludes keyword <*>
      Directive.readPath keyword ts with
  | valid c =>
    obtain ⟨_, path, hd, -, rfl⟩ := Checked.apply_eq_valid_iff.mp h
    obtain ⟨d, -, rfl⟩ := Checked.map_eq_valid_iff.mp hd
    exact .inl ⟨d, path, rfl⟩
  | invalid fs =>
    refine .inr ⟨fs, rfl, fun hnil => hreasoned ?_⟩
    rw [h, hnil]

theorem ofRule_cases (tokens : List Token) :
    (∃ r, ofRule tokens = .rule r) ∨ ∃ fs, ofRule tokens = .malformed fs ∧ fs ≠ [] := by
  have hreasoned := Rule.reasoned_read tokens
  unfold ofRule
  cases h : Rule.read tokens with
  | valid r => exact .inl ⟨r, rfl⟩
  | invalid fs =>
    refine .inr ⟨fs, rfl, fun hnil => hreasoned ?_⟩
    rw [h, hnil]

/-! ## what a line has to be -/

/-- What the shape of a line and its tokens have to be for it to say this. -/
def Warranted (allowIncludes : Bool) (raw : String) : Content → Prop
  | .blank => Shape.ofRaw raw = .blank
  | .comment text => Shape.ofRaw raw = .comment text
  | .includes d path => ofDirective allowIncludes (Token.scan raw) = .includes d path
  | .rule r => ofRule (Token.scan raw) = .rule r
  | .malformed fs => fs ≠ []

variable {raw : String}

theorem warranted_read (allowIncludes : Bool) (raw : String) :
    (read allowIncludes raw).Warranted allowIncludes raw := by
  rw [read]
  cases hshape : Shape.ofRaw raw with
  | blank => exact hshape
  | comment text => exact hshape
  | directive tokens =>
    obtain rfl := Shape.tokens_of_ofRaw_eq_directive hshape
    have hne : Token.scan raw ≠ [] := Shape.scan_ne_nil_of_ofRaw fun h => by
      rw [hshape] at h
      cases h
    rw [ofShape]
    rcases ofDirective_cases allowIncludes hne with ⟨d, path, h⟩ | ⟨fs, h, hfs⟩
    · rw [h]
      exact h
    · rw [h]
      exact hfs
  | rule tokens =>
    obtain rfl := Shape.tokens_of_ofRaw_eq_rule hshape
    rw [ofShape]
    rcases ofRule_cases (Token.scan raw) with ⟨r, h⟩ | ⟨fs, h, hfs⟩
    · rw [h]
      exact h
    · rw [h]
      exact hfs

theorem warranted_of_read_eq {c : Content} (h : read allowIncludes raw = c) :
    c.Warranted allowIncludes raw :=
  h ▸ warranted_read allowIncludes raw

/-! ## the five kinds -/

theorem read_eq_blank_iff : read allowIncludes raw = .blank ↔ Text.trimmed raw = "" := by
  rw [← Shape.ofRaw_eq_blank_iff]
  constructor
  · exact warranted_of_read_eq
  · intro h
    rw [read, h]
    rfl

theorem read_eq_comment_iff {text : String} : read allowIncludes raw = .comment text ↔
    ∃ rest, Text.trimmed raw = "#" ++ rest ∧ text = Text.trimmed rest := by
  rw [← Shape.ofRaw_eq_comment_iff]
  constructor
  · exact warranted_of_read_eq
  · intro h
    rw [read, h]
    rfl

theorem read_eq_includes_iff {d : Directive} {path : String} :
    read allowIncludes raw = .includes d path ↔
      Token.words raw = [d.word, path] ∧ allowIncludes = true := by
  constructor
  · intro h
    exact ofDirective_eq_includes_iff.mp (warranted_of_read_eq h)
  · intro h
    obtain ⟨cs, hcs⟩ := d.word_toList
    rw [read, Shape.ofRaw_eq_directive h.1 hcs]
    exact ofDirective_eq_includes_iff.mpr h

theorem ofRaw_eq_of_spelled {r : Rule} (h : r.Spelled (Token.words raw)) :
    Shape.ofRaw raw = .rule (Token.scan raw) := by
  obtain ⟨rest, -, hwords⟩ := h.action
  obtain ⟨c, cs, hc, hblank, hcomment, hdirective⟩ := h.service.exists_first
  exact Shape.ofRaw_eq_rule hwords hc hblank hcomment hdirective

theorem read_eq_rule_iff {r : Rule} :
    read allowIncludes raw = .rule r ↔ r.Spelled (Token.words raw) := by
  have htokens : ∀ t ∈ Token.scan raw, Token.NoSeparator t.value := fun t ht =>
    (Token.isText_of_mem_scanFrom ht).noSeparator
  rw [Token.words, ← Rule.read_eq_valid_iff htokens, ← ofRule_eq_rule_iff]
  constructor
  · exact warranted_of_read_eq
  · intro h
    have hspelled : r.Spelled (Token.words raw) :=
      (Rule.read_eq_valid_iff htokens).mp (ofRule_eq_rule_iff.mp h)
    rw [read, ofRaw_eq_of_spelled hspelled]
    exact h

/-- A line of three words or more is a comment, or a rule, or malformed, which its first character
tells. -/
theorem read_of_first (allowIncludes : Bool) {w : String} {ws : List String}
    (hwords : Token.words raw = w :: ws) (hmany : 2 ≤ ws.length) {c : Char} {cs : List Char}
    (hw : w.toList = c :: cs) (hc : Text.isBlank c = false) :
    ((∃ text, read allowIncludes raw = .comment text) ↔ c = '#') ∧
    (c ≠ '#' → (∃ r, read allowIncludes raw = .rule r) ∨
      (read allowIncludes raw).isMalformed = true) := by
  obtain ⟨rest, hrest⟩ := Token.exists_trim_eq_cons hwords hw hc
  have hcomment : (∃ text, read allowIncludes raw = .comment text) ↔ c = '#' := by
    simp only [read_eq_comment_iff, Text.trimmed_eq_iff, hrest]
    constructor
    · rintro ⟨text, rest', hrest', -⟩
      rw [String.toList_append, show "#".toList = ['#'] from rfl] at hrest'
      exact (List.cons.inj hrest').1
    · rintro rfl
      exact ⟨_, String.ofList rest, by simp, rfl⟩
  refine ⟨hcomment, fun hne => ?_⟩
  cases hread : read allowIncludes raw with
  | blank =>
    have hblank := read_eq_blank_iff.mp hread
    rw [Text.trimmed_eq_iff, hrest] at hblank
    cases hblank
  | comment text => exact absurd (hcomment.mp ⟨text, hread⟩) hne
  | includes d path =>
    have hpath := (read_eq_includes_iff.mp hread).1
    rw [hwords] at hpath
    rw [(List.cons.inj hpath).2, List.length_singleton] at hmany
    omega
  | rule r => exact .inl ⟨r, rfl⟩
  | malformed fs => exact .inr rfl

end Content

/-! ## lines -/

theorem Line.diagnostics_eq_nil_iff (allowIncludes : Bool) (number : Nat) (raw : String) :
    (Line.read allowIncludes number raw).diagnostics = [] ↔
      (Line.read allowIncludes number raw).content.isMalformed = false := by
  unfold diagnostics
  cases h : (Line.read allowIncludes number raw).content with
  | malformed fs =>
    have hfs : fs ≠ [] := Content.warranted_of_read_eq h
    simp [hfs, Content.isMalformed]
  | blank => simp [Content.isMalformed]
  | comment text => simp [Content.isMalformed]
  | includes d path => simp [Content.isMalformed]
  | rule r => simp [Content.isMalformed]

/-- **A line says what its text and its words spell.** It is blank, a comment, an include or a rule
if it is spelled like one, and otherwise it is malformed, which is told. -/
theorem Line.content_read_iff (allowIncludes : Bool) (number : Nat) (raw : String) :
    let l := Line.read allowIncludes number raw
    (l.content = .blank ↔ Text.trimmed raw = "") ∧
    (∀ text, l.content = .comment text ↔
      ∃ rest, Text.trimmed raw = "#" ++ rest ∧ text = Text.trimmed rest) ∧
    (∀ d path, l.content = .includes d path ↔
      Token.words raw = [d.word, path] ∧ allowIncludes = true) ∧
    (∀ r, l.content = .rule r ↔ r.Spelled (Token.words raw)) ∧
    (l.content.isMalformed = true ↔
      Text.trimmed raw ≠ "" ∧ (¬ ∃ rest, Text.trimmed raw = "#" ++ rest) ∧
      (¬ ∃ d path, Token.words raw = [Directive.word d, path] ∧ allowIncludes = true) ∧
      ¬ ∃ r : Rule, r.Spelled (Token.words raw)) ∧
    (l.diagnostics = [] ↔ l.content.isMalformed = false) := by
  have hblank : (Line.read allowIncludes number raw).content = .blank ↔ _ :=
    Content.read_eq_blank_iff
  have hcomment : ∀ text, (Line.read allowIncludes number raw).content = .comment text ↔ _ :=
    fun text => Content.read_eq_comment_iff
  have hincludes : ∀ d path,
      (Line.read allowIncludes number raw).content = .includes d path ↔ _ :=
    fun d path => Content.read_eq_includes_iff
  have hrule : ∀ r, (Line.read allowIncludes number raw).content = .rule r ↔ _ :=
    fun r => Content.read_eq_rule_iff
  refine ⟨hblank, hcomment, hincludes, hrule, ?_, diagnostics_eq_nil_iff allowIncludes number raw⟩
  have hstarts : (∃ text, (Line.read allowIncludes number raw).content = .comment text) ↔
      ∃ rest, Text.trimmed raw = "#" ++ rest := by
    simp only [hcomment]
    exact ⟨fun ⟨_, rest, hraw, _⟩ => ⟨rest, hraw⟩, fun ⟨rest, hraw⟩ => ⟨_, rest, hraw, rfl⟩⟩
  simp only [← hrule, ← hincludes, ← hstarts, ne_eq, ← hblank]
  cases (Line.read allowIncludes number raw).content with
  | blank => simp [Content.isMalformed]
  | comment text => simp [Content.isMalformed]
  | includes d path => simp [Content.isMalformed]
  | rule r => simp [Content.isMalformed]
  | malformed fs => simp [Content.isMalformed]

end QubePolicy
