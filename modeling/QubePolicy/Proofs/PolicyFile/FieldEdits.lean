import QubePolicy.Proofs.Line.Grammar
import QubePolicy.Proofs.PolicyFile.Edits
import QubePolicy.Proofs.Token.Places

/-!
# Rules with one field edited

An edit of a field exchanges the text of one token, or all that is behind the action word, and the
line is read anew.

* `Token.Exchanged`              a line with one token exchanged;
* `Token.Continued`              a line that goes on otherwise behind a token;
* `PolicyFile.withField_exchanged`, `withField_continued`   an edit comes to one of the two;
* `Rule.respecified?`            the rule with one of its four specifiers read anew;
* `Rule.Spelled.respecified`     the words that spell it;
* `Rule.Field.hides`             a value that makes the line a comment;
* `PolicyFile.withField_keeps`   what the line says then;
* `PolicyFile.withField_respecified`, `withField_refused`   and what it says with a new specifier;
* `PolicyFile.editField_lines`   the lines of the file afterwards.
-/

namespace QubePolicy

open Token (IsText)

/-! ## lines with a token exchanged -/

namespace Token

/-- The second line is the first one with the text of the token at the index exchanged. -/
def Exchanged (i : Nat) (value raw raw' : String) : Prop :=
  ∃ t front back, (scan raw)[i]? = some t ∧ t.column = Text.units front + 1 ∧
    raw = front ++ t.value ++ back ∧ raw' = front ++ value ++ back

/-- The second line is the first one up to the token at the index, and then the text, if there is
any, with a space in front of it. -/
def Continued (i : Nat) (text raw raw' : String) : Prop :=
  ∃ t front back, (scan raw)[i]? = some t ∧ t.column = Text.units front + 1 ∧
    raw = front ++ t.value ++ back ∧
    raw' = front ++ t.value ++ (if text = "" then "" else " " ++ text)

end Token

namespace PolicyFile

variable {raw raw' value : String} {field : Rule.Field} {i : Nat} {t : Token}
  {front back : List Char}

/-! ## fields of a raw line -/

theorem toNat_column (h : t.Between 1 raw.toList i front back) :
    (t.column - 1).toNat = Text.width front := by
  rw [h.column_eq]
  omega

theorem toNat_endColumn (h : t.Between 1 raw.toList i front back) :
    (t.endColumn - 1).toNat = Text.width (front ++ t.value.toList) := by
  rw [Token.endColumn, h.column_eq, Text.units, Text.width_append]
  omega

theorem spliceToken_eq (h : t.Between 1 raw.toList i front back) (value : List Char) :
    spliceToken raw.toList t value = front ++ (value ++ back) := by
  rw [spliceToken, toNat_column h, toNat_endColumn h, h.text, Text.takeUnits_width,
    ← List.append_assoc, Text.dropUnits_width, List.append_assoc]

theorem spliceBehind_eq (h : t.Between 1 raw.toList i front back) (text : List Char) :
    spliceBehind raw.toList t text =
      front ++ (t.value.toList ++ if text = [] then [] else ' ' :: text) := by
  rw [spliceBehind, toNat_endColumn h, h.text, ← List.append_assoc, Text.takeUnits_width,
    List.append_assoc]

theorem exists_token (hlen : i < (Token.words raw).length) :
    ∃ t, (Token.scan raw)[i]? = some t := by
  rw [Token.words, List.length_map] at hlen
  exact ⟨_, List.getElem?_eq_getElem hlen⟩

/-- **A field that is one token is exchanged**, and with it one of the words. -/
theorem withField_exchanged (hi : field.index? = some i) (hlen : i < (Token.words raw).length)
    (h : withField raw field value = .ok raw') :
    isOneToken value = true ∧ Token.Exchanged i value raw raw' ∧
      Token.words raw' = (Token.words raw).set i value := by
  obtain ⟨t, ht⟩ := exists_token hlen
  obtain ⟨front, back, hbetween⟩ := Token.exists_between_scanFrom 1 raw.toList i ht
  unfold withField at h
  simp only [hi] at h
  split at h
  · next hone =>
    rw [ht] at h
    obtain rfl := Except.ok.inj h
    obtain ⟨hcolumn, hraw⟩ := hbetween.raw_eq
    refine ⟨hone, ⟨t, String.ofList front, String.ofList back, ht, hcolumn, hraw, ?_⟩, ?_⟩
    · rw [spliceToken_eq hbetween, ← String.toList_inj]
      simp
    · rw [spliceToken_eq hbetween, Token.words, Token.scan, String.toList_ofList,
        hbetween.map_value_set (Token.isText_of_isOneToken hone)]
      rfl
  · cases h

/-- **The parameters are exchanged behind the action word**, and so are the words there. -/
theorem withField_continued (hlen : 4 < (Token.words raw).length)
    (h : withField raw .parameters value = .ok raw') :
    Token.Continued 4 (Text.trimmed value) raw raw' ∧
      Token.words raw' = (Token.words raw).take 5 ++ Token.words (Text.trimmed value) := by
  obtain ⟨t, ht⟩ := exists_token hlen
  obtain ⟨front, back, hbetween⟩ := Token.exists_between_scanFrom 1 raw.toList 4 ht
  unfold withField at h
  simp only [Rule.Field.index?, ht] at h
  obtain rfl := Except.ok.inj h
  let tail : List Char := if Text.trim value.toList = [] then [] else ' ' :: Text.trim value.toList
  have htail : ∀ c, tail.head? = some c → Token.isWord c = false := by
    intro c hc
    by_cases hnil : Text.trim value.toList = []
    · simp [tail, hnil] at hc
    · rw [show tail = ' ' :: _ from if_neg hnil, List.head?_cons] at hc
      exact Option.some.inj hc ▸ by decide
  have hspace : ∀ c ∈ [' '], Text.isSeparator c = true :=
    List.forall_mem_singleton.mpr (by decide)
  have hwords : (Token.scanFrom 1 tail).map Token.value = Token.words (Text.trimmed value) := by
    rw [Token.words, Token.scan, Text.trimmed, String.toList_ofList]
    by_cases hnil : Text.trim value.toList = []
    · rw [show tail = [] from if_pos hnil, hnil]
    · rw [show tail = [' '] ++ Text.trim value.toList from if_neg hnil]
      exact Token.map_value_scanFrom_gap 1 [' '] _ hspace
  have hsplice : spliceBehind raw.toList t (Text.trim value.toList) =
      front ++ (t.value.toList ++ tail) := spliceBehind_eq hbetween _
  obtain ⟨hcolumn, hraw⟩ := hbetween.raw_eq
  refine ⟨⟨t, String.ofList front, String.ofList back, ht, hcolumn, hraw, ?_⟩, ?_⟩
  · rw [hsplice, ← String.toList_inj]
    by_cases hnil : Text.trim value.toList = [] <;> simp [tail, hnil, Text.trimmed]
  · rw [hsplice, Token.words, Token.scan, String.toList_ofList, hbetween.map_value_take htail,
      hwords]
    rfl

end PolicyFile

/-! ## specifiers read anew -/

namespace Rule

def Field.isSpecifier : Field → Bool
  | .service | .argument | .source | .destination => true
  | .action | .parameters => false

/-- The rule with the specifier in a field read from a text, if the text is one that may stand
there. -/
def respecified? (r : Rule) (text : String) : Field → Option Rule
  | .service => (ServiceSpecifier.read text).toOption.map fun s => { r with service := s }
  | .argument => (ArgumentSpecifier.read text).toOption.map fun a => { r with argument := a }
  | .source => (QubeSpecifier.readAt .source text).toOption.map fun q => { r with source := q }
  | .destination =>
    (QubeSpecifier.readAt .destination text).toOption.map fun q => { r with destination := q }
  | .action | .parameters => none

variable {r r' : Rule} {ws : List String} {value : String} {field : Field} {i : Nat}

/-- **The words of a rule with one word exchanged spell the rule with that specifier read anew.** -/
theorem Spelled.respecified (h : r.Spelled ws) (hi : field.index? = some i) (hvalue : IsText value)
    (hr : r.respecified? value field = some r') : r'.Spelled (ws.set i value) := by
  obtain ⟨rest, haction, rfl⟩ := h.action
  cases field with
  | service =>
    cases hi
    obtain ⟨s, hs, rfl⟩ := Option.map_eq_some_iff.mp hr
    obtain ⟨hwell, rfl⟩ := ServiceSpecifier.read_eq_ok_iff.mp (Except.toOption_eq_some_iff.mp hs)
    exact ⟨hwell, h.argument, h.source, h.destination, rest, haction, rfl⟩
  | argument =>
    cases hi
    obtain ⟨a, ha, rfl⟩ := Option.map_eq_some_iff.mp hr
    obtain ⟨hwell, rfl⟩ := (ArgumentSpecifier.read_eq_ok_iff hvalue.noSeparator).mp
      (Except.toOption_eq_some_iff.mp ha)
    exact ⟨h.service, hwell, h.source, h.destination, rest, haction, rfl⟩
  | source =>
    cases hi
    obtain ⟨q, hq, rfl⟩ := Option.map_eq_some_iff.mp hr
    obtain ⟨⟨hwell, hlegal⟩, rfl⟩ :=
      QubeSpecifier.readAt_eq_ok_iff.mp (Except.toOption_eq_some_iff.mp hq)
    exact ⟨h.service, h.argument, ⟨hwell, legalIn_source_iff.mp hlegal⟩, h.destination, rest,
      haction, rfl⟩
  | destination =>
    cases hi
    obtain ⟨q, hq, rfl⟩ := Option.map_eq_some_iff.mp hr
    obtain ⟨⟨hwell, -⟩, rfl⟩ :=
      QubeSpecifier.readAt_eq_ok_iff.mp (Except.toOption_eq_some_iff.mp hq)
    exact ⟨h.service, h.argument, h.source, hwell, rest, haction, rfl⟩
  | action => cases hr
  | parameters => cases hr

theorem isSome_map_toOption {ε α : Type} {x : Except ε α} {a : α} (h : x = .ok a)
    (update : α → Rule) : (x.toOption.map update).isSome = true := by
  rw [h]
  rfl

/-- **Words of a rule that spell one again with one word exchanged** have a text there that may
stand in the field. -/
theorem Spelled.isSome_respecified? (h : r.Spelled ws) (hfield : field.isSpecifier = true)
    (hi : field.index? = some i) (hvalue : IsText value) (hr : r'.Spelled (ws.set i value)) :
    (r.respecified? value field).isSome = true := by
  obtain ⟨rest, -, rfl⟩ := h.action
  obtain ⟨rest', -, hwords⟩ := hr.action
  cases field with
  | service =>
    cases hi
    obtain ⟨rfl, -⟩ := List.cons.inj hwords
    exact isSome_map_toOption (ServiceSpecifier.read_eq_ok_iff.mpr ⟨hr.service, rfl⟩) _
  | argument =>
    cases hi
    simp only [List.set_cons_succ, List.set_cons_zero, List.cons.injEq] at hwords
    exact isSome_map_toOption ((ArgumentSpecifier.read_eq_ok_iff hvalue.noSeparator).mpr
      ⟨hr.argument, hwords.2.1⟩) _
  | source =>
    cases hi
    simp only [List.set_cons_succ, List.set_cons_zero, List.cons.injEq] at hwords
    exact isSome_map_toOption (QubeSpecifier.readAt_eq_ok_iff.mpr
      ⟨⟨hr.source.1, legalIn_source_iff.mpr hr.source.2⟩, hwords.2.2.1⟩) _
  | destination =>
    cases hi
    simp only [List.set_cons_succ, List.set_cons_zero, List.cons.injEq] at hwords
    exact isSome_map_toOption (QubeSpecifier.readAt_eq_ok_iff.mpr
      ⟨⟨hr.destination, legalIn_destination _⟩, hwords.2.2.2.1⟩) _
  | action => cases hfield
  | parameters => cases hfield

theorem Spelled.four_lt_length (h : r.Spelled ws) : 4 < ws.length := by
  obtain ⟨rest, haction, rfl⟩ := h.action
  obtain ⟨w, ws, rfl⟩ := haction.exists_cons
  simp

theorem Field.index?_eq_none_iff : field.index? = none ↔ field = .parameters := by
  cases field <;> decide

theorem Field.index?_eq_zero_iff : field.index? = some 0 ↔ field = .service := by
  cases field <;> decide

theorem Field.index?_lt_five (h : field.index? = some i) : i < 5 := by
  cases field <;> cases h <;> decide

/-- Whether a value put in the field makes the line a comment: only the first word of a line can. -/
def Field.hides (field : Field) (value : String) : Bool :=
  field == .service && value.toList.head? == some '#'

theorem Field.hides_service_iff {c : Char} {cs : List Char} (hvalue : value.toList = c :: cs) :
    Field.hides .service value = true ↔ c = '#' := by
  simp [hides, hvalue]

theorem Field.hides_of_ne_service (h : field ≠ .service) (value : String) :
    field.hides value = false := by
  simp [hides, h]

end Rule

/-! ## what an edited line says -/

namespace PolicyFile

variable {raw raw' value : String} {field : Rule.Field} {r r' : Rule} {allowIncludes : Bool}
  {i : Nat}

theorem exists_first_of_isOneToken (h : isOneToken value = true) :
    ∃ c cs, value.toList = c :: cs ∧ Text.isBlank c = false := by
  obtain ⟨c, cs, hcs⟩ := List.exists_cons_of_ne_nil (Token.isText_of_isOneToken h).toList_ne_nil
  refine ⟨c, cs, hcs, ?_⟩
  unfold isOneToken at h
  rw [Bool.and_eq_true, beq_iff_eq, beq_iff_eq, Text.trimmed_eq_iff] at h
  have hhead : (Text.trim value.toList).head? = some c := by
    rw [h.2, hcs]
    rfl
  exact Text.head?_trim hhead

theorem withField_index (hi : field.index? = some i) (hrule : r.Spelled (Token.words raw))
    (h : withField raw field value = .ok raw') :
    isOneToken value = true ∧ Token.Exchanged i value raw raw' ∧
      Token.words raw' = (Token.words raw).set i value :=
  withField_exchanged hi
    (Nat.lt_of_lt_of_le (Rule.Field.index?_lt_five hi) hrule.four_lt_length) h

theorem head?_words_withField (hrule : r.Spelled (Token.words raw)) (hservice : field ≠ .service)
    (h : withField raw field value = .ok raw') :
    (Token.words raw').head? = (Token.words raw).head? ∧ 3 ≤ (Token.words raw').length := by
  have hlen := hrule.four_lt_length
  cases hi : field.index? with
  | none =>
    obtain rfl := Rule.Field.index?_eq_none_iff.mp hi
    rw [(withField_continued hlen h).2, List.length_append, List.length_take, List.head?_append,
      List.head?_take, if_neg (by decide)]
    refine ⟨?_, by omega⟩
    rw [List.head?_eq_some_head (List.ne_nil_of_length_pos (Nat.zero_lt_of_lt hlen)),
      Option.some_or]
  | some i =>
    obtain ⟨-, -, hset⟩ := withField_index hi hrule h
    have hpos : i ≠ 0 := fun hzero => hservice (Rule.Field.index?_eq_zero_iff.mp (hzero ▸ hi))
    rw [hset, List.length_set, List.head?_eq_getElem?, List.head?_eq_getElem?,
      List.getElem?_set_ne hpos]
    exact ⟨rfl, by omega⟩

/-- **The first word of an edited line**: there are two more behind it, and it begins like a comment
only with a value that does. -/
theorem withField_first (hrule : r.Spelled (Token.words raw))
    (h : withField raw field value = .ok raw') :
    ∃ w ws c cs, Token.words raw' = w :: ws ∧ 2 ≤ ws.length ∧ w.toList = c :: cs ∧
      Text.isBlank c = false ∧ (c = '#' ↔ field.hides value = true) := by
  obtain ⟨rest, haction, hwords⟩ := hrule.action
  by_cases hservice : field = .service
  · subst hservice
    obtain ⟨hone, -, hset⟩ := withField_index rfl hrule h
    obtain ⟨c, cs, hc, hblank⟩ := exists_first_of_isOneToken hone
    rw [hwords, List.set_cons_zero] at hset
    exact ⟨value, _, c, cs, hset, by simp, hc, hblank, (Rule.Field.hides_service_iff hc).symm⟩
  · obtain ⟨c, cs, hc, hblank, hcomment, -⟩ := hrule.service.exists_first
    obtain ⟨hhead, hmany⟩ := head?_words_withField hrule hservice h
    rw [hwords, List.head?_cons] at hhead
    obtain ⟨ws, hws⟩ := List.head?_eq_some_iff.mp hhead
    rw [hws, List.length_cons] at hmany
    refine ⟨_, ws, c, cs, hws, by omega, hc, hblank, ?_⟩
    simp [hcomment, Rule.Field.hides_of_ne_service hservice]

/-- **An edited line is a comment if the value hides it**, and otherwise a rule still, or
malformed. -/
theorem withField_keeps (hrule : r.Spelled (Token.words raw))
    (h : withField raw field value = .ok raw') :
    ((∃ text, Content.read allowIncludes raw' = .comment text) ↔ field.hides value = true) ∧
    (field.hides value = false → (∃ r', Content.read allowIncludes raw' = .rule r') ∨
      (Content.read allowIncludes raw').isMalformed = true) := by
  obtain ⟨w, ws, c, cs, hwords, hmany, hw, hblank, hhides⟩ := withField_first hrule h
  obtain ⟨hcomment, hother⟩ := Content.read_of_first allowIncludes hwords hmany hw hblank
  rw [← hhides]
  refine ⟨hcomment, fun hfalse => hother fun hc => ?_⟩
  rw [hhides.mp hc] at hfalse
  cases hfalse

/-- **A specifier that may stand in its field** makes the line the rule with it. -/
theorem withField_respecified (hrule : r.Spelled (Token.words raw))
    (h : withField raw field value = .ok raw') (hr : r.respecified? value field = some r') :
    Content.read allowIncludes raw' = .rule r' := by
  cases hi : field.index? with
  | none =>
    obtain rfl := Rule.Field.index?_eq_none_iff.mp hi
    cases hr
  | some i =>
    obtain ⟨hone, -, hset⟩ := withField_index hi hrule h
    rw [Content.read_eq_rule_iff, hset]
    exact hrule.respecified hi (Token.isText_of_isOneToken hone) hr

/-- **One that may not stand there** makes it malformed, unless it hides the line. -/
theorem withField_refused (hrule : r.Spelled (Token.words raw))
    (h : withField raw field value = .ok raw') (hfield : field.isSpecifier = true)
    (hr : r.respecified? value field = none) (hhides : field.hides value = false) :
    (Content.read allowIncludes raw').isMalformed = true := by
  obtain ⟨i, hi⟩ : ∃ i, field.index? = some i := by
    cases field <;> first | exact ⟨_, rfl⟩ | cases hfield
  obtain ⟨hone, -, hset⟩ := withField_index hi hrule h
  refine ((withField_keeps hrule h).2 hhides).resolve_left ?_
  rintro ⟨r', hr'⟩
  rw [Content.read_eq_rule_iff, hset] at hr'
  have hsome := hrule.isSome_respecified? hfield hi (Token.isText_of_isOneToken hone) hr'
  rw [hr] at hsome
  cases hsome

end PolicyFile

/-! ## files -/

namespace PolicyFile

variable {f g : PolicyFile} {index : Number} {field : Rule.Field} {value : String}

/-- **An edit of a field reads one line anew**, the line of a rule, and leaves the others. -/
theorem editField_lines (h : f.editField index field value = .ok g) : ∃ i l r raw,
    index.toNat? = some i ∧ f.line? i = some l ∧ l.content = .rule r ∧
      withField l.raw field value = .ok raw ∧
      g.line? i = some (Line.read f.allowIncludes l.number raw) ∧
      ∀ j, j ≠ i → g.line? j = f.line? j := by
  obtain ⟨i, l, r, raw, hi, hl, hr, hraw, hreplace⟩ := editField_eq_ok h
  obtain ⟨k, hk, hlt, -, rfl⟩ := replaceLine_eq_ok_iff.mp hreplace
  obtain rfl : i = k := Option.some.inj (hi.symm.trans hk)
  refine ⟨i, l, r, raw, hi, hl, hr, hraw, ?_, fun j hj => ?_⟩
  · have hread := hl
    rw [line?_eq, List.getElem?_eq_getElem hlt] at hread
    obtain rfl := Option.some.inj hread
    rw [line?_eq, List.getElem?_set_self hlt]
    rfl
  · rw [line?_eq, line?_eq, List.getElem?_set_ne (Ne.symm hj)]

theorem spelled_of_line? {i : Nat} {l : Line} {r : Rule} (hl : f.line? i = some l)
    (hr : l.content = .rule r) : r.Spelled (Token.words l.raw) := by
  rw [line?_eq] at hl
  obtain ⟨raw, -, rfl⟩ := Option.map_eq_some_iff.mp hl
  exact Content.read_eq_rule_iff.mp hr

end PolicyFile

end QubePolicy
