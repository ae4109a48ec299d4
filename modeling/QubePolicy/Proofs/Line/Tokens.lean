import QubePolicy.Proofs.PolicyFile.FieldEdits

/-!
# Tokens that have to be there

Reading a line, and editing a field of it, looks for tokens in certain places, and for fields that
have been read, without asking again whether they are there.

* `Rule.actionIndex?`         the place of the action word that counts;
* `Rule.findings_read`        what is told of tokens around such a word;
* `Rule.FieldsRead`           four tokens, each read as the field in its place;
* `Rule.read_at_word`         where nothing is told, all four fields have been read;
* `Rule.Spelled.exists_word`  the fifth token of a rule is its action word;
* `Line.tokens_in_place`      the tokens are there whenever they are looked for.
-/

namespace QubePolicy

theorem Checked.exists_valid_of_findings {α : Type} {place : Place} {e : Except Problem α}
    (h : (ofExcept place e).findings = []) : ∃ a, ofExcept place e = .valid a := by
  cases e with
  | ok a => exact ⟨a, rfl⟩
  | error p => cases h

namespace Rule

variable {tokens head parameters : List Token} {word : Token} {i : Nat}

/-! ## the action word -/

/-- The place of the action word: the fifth, and if no action word stands there, the first place in
which one does. -/
def actionIndex? (tokens : List Token) : Option Nat :=
  if tokens[4]?.any isActionWord then some 4 else tokens.findIdx? isActionWord

/-- The fifth token is an action word, or the first action word counts. -/
theorem actionIndex?_cases (tokens : List Token) :
    (∃ word, tokens[4]? = some word ∧ isActionWord word = true ∧ actionIndex? tokens = some 4) ∨
    (∀ word, tokens[4]? = some word → isActionWord word = false) ∧
      actionIndex? tokens = tokens.findIdx? isActionWord := by
  cases hfifth : tokens[4]?.any isActionWord with
  | true =>
    obtain ⟨word, hword, haction⟩ := (Option.any_eq_true _ _).mp hfifth
    exact .inl ⟨word, hword, haction, if_pos hfifth⟩
  | false =>
    refine .inr ⟨fun word hword => ?_, if_neg (Bool.eq_false_iff.mp hfifth)⟩
    rwa [hword, Option.any_some] at hfifth

theorem exists_word_of_actionIndex? (h : actionIndex? tokens = some i) :
    ∃ word, tokens[i]? = some word ∧ isActionWord word = true := by
  rcases actionIndex?_cases tokens with ⟨word, hword, haction, hindex⟩ | ⟨-, hindex⟩
  · obtain rfl : 4 = i := Option.some.inj (hindex.symm.trans h)
    exact ⟨word, hword, haction⟩
  · obtain ⟨hi, haction, -⟩ := List.findIdx?_eq_some_iff_getElem.mp (hindex.symm.trans h)
    exact ⟨_, List.getElem?_eq_getElem hi, haction⟩

theorem misplaced_of_findIdx? (h : tokens.findIdx? isActionWord = some i)
    (hword : tokens[i]? = some word) :
    misplaced tokens = misplacedWord (tokens.take i) word (tokens.drop (i + 1)) := by
  obtain ⟨hi, hfirst⟩ := List.findIdx?_eq_some_iff_findIdx_eq.mp h
  have hindex : tokens.findIdx (fun t => !(!isActionWord t)) = i := by
    simpa only [Bool.not_not] using hfirst
  obtain ⟨_, hget⟩ := List.getElem?_eq_some_iff.mp hword
  unfold misplaced
  rw [List.takeWhile_eq_take_findIdx_not, List.dropWhile_eq_drop_findIdx_not, hindex,
    List.drop_eq_getElem_cons hi, hget]

/-- **What is told of a line with an action word** is what is wrong in front of the word, with the
fields there, and with the word and what is behind it. -/
theorem findings_read (h : actionIndex? tokens = some i) (hword : tokens[i]? = some word) :
    (read tokens).findings = misplacedWord (tokens.take i) word (tokens.drop (i + 1)) := by
  rcases actionIndex?_cases tokens with ⟨fifth, hfifth, haction, hindex⟩ | ⟨hfifth, hindex⟩
  · obtain rfl : 4 = i := Option.some.inj (hindex.symm.trans h)
    obtain rfl : fifth = word := Option.some.inj (hfifth.symm.trans hword)
    obtain ⟨service, argument, source, destination, parameters, rfl⟩ := exists_fields hfifth
    rw [read, if_pos haction]
    simp [misplacedWord, fieldFindings, Checked.findings_apply, Checked.findings_map]
  · rw [read_eq_misplaced hfifth]
    exact misplaced_of_findIdx? (hindex.symm.trans h) hword

/-! ## the fields -/

/-- The tokens are four, and each of them has been read as the field in its place. -/
def FieldsRead (head : List Token) : Prop :=
  ∃ service argument source destination : Token, head = [service, argument, source, destination] ∧
    (∃ s, service.readService = .valid s) ∧ (∃ a, argument.readArgument = .valid a) ∧
    (∃ q, source.readQube .source = .valid q) ∧ ∃ q, destination.readQube .destination = .valid q

theorem fieldsRead_of_misplacedWord (h : misplacedWord head word parameters = []) :
    FieldsRead head := by
  have hlen : head.length = 4 := by_contra fun hne => misplacedWord_ne_nil hne word parameters h
  match head, hlen with
  | [service, argument, source, destination], _ =>
    simp only [misplacedWord, fieldFindings, List.append_eq_nil_iff] at h
    obtain ⟨⟨-, hservice, hargument, hsource, hdestination⟩, -⟩ := h
    exact ⟨service, argument, source, destination, rfl,
      Checked.exists_valid_of_findings hservice, Checked.exists_valid_of_findings hargument,
      Checked.exists_valid_of_findings hsource, Checked.exists_valid_of_findings hdestination⟩

/-- **Where nothing is told of a line with an action word, its four fields have been read.** -/
theorem read_at_word (h : actionIndex? tokens = some i) : ∃ word, tokens[i]? = some word ∧
    isActionWord word = true ∧
    (read tokens).findings = misplacedWord (tokens.take i) word (tokens.drop (i + 1)) ∧
    ((read tokens).findings = [] → FieldsRead (tokens.take i)) := by
  obtain ⟨word, hword, haction⟩ := exists_word_of_actionIndex? h
  have hfindings := findings_read h hword
  exact ⟨word, hword, haction, hfindings,
    fun hnone => fieldsRead_of_misplacedWord (hfindings.symm.trans hnone)⟩

theorem Spelled.exists_word {raw : String} {r : Rule} (h : r.Spelled (Token.words raw)) :
    ∃ word, (Token.scan raw)[4]? = some word ∧ word.value = r.action.decision.word := by
  obtain ⟨rest, haction, hwords⟩ := h.action
  obtain ⟨w, ws, rfl⟩ := haction.exists_cons
  have hfifth : (Token.words raw)[4]? = some w := by rw [hwords]; rfl
  rw [Token.words, List.getElem?_map] at hfifth
  obtain ⟨word, hword, rfl⟩ := Option.map_eq_some_iff.mp hfifth
  exact ⟨word, hword, haction.head_eq⟩

end Rule

/-! ## lines -/

/-- **The tokens of a line are there whenever they are looked for.** A line that begins like a
directive or a rule has one; a rule has a token for each field that may be edited, the fifth being
its action word; and what is refused is refused for a reason, since where nothing is told all four
fields have been read. -/
theorem Line.tokens_in_place :
    (∀ raw tokens, Shape.ofRaw raw = .directive tokens ∨ Shape.ofRaw raw = .rule tokens →
      tokens = Token.scan raw ∧ ∃ first rest, tokens = first :: rest) ∧
    (∀ allowIncludes number raw r, (read allowIncludes number raw).content = .rule r →
      5 ≤ (Token.scan raw).length ∧
      (∃ word, (Token.scan raw)[4]? = some word ∧ word.value = r.action.decision.word) ∧
      ∀ (field : Rule.Field) i, field.index? = some i → ∃ t, (Token.scan raw)[i]? = some t) ∧
    ∀ tokens, Rule.read tokens ≠ .invalid [] ∧
      ∀ i, Rule.actionIndex? tokens = some i → ∃ word, tokens[i]? = some word ∧
        Rule.isActionWord word = true ∧
        (Rule.read tokens).findings =
          Rule.misplacedWord (tokens.take i) word (tokens.drop (i + 1)) ∧
        ((Rule.read tokens).findings = [] → Rule.FieldsRead (tokens.take i)) := by
  refine ⟨?_, ?_, fun tokens => ⟨Rule.reasoned_read tokens, fun i => Rule.read_at_word⟩⟩
  · intro raw tokens h
    have htokens : tokens = Token.scan raw :=
      h.elim Shape.tokens_of_ofRaw_eq_directive Shape.tokens_of_ofRaw_eq_rule
    have hne : Token.scan raw ≠ [] := Shape.scan_ne_nil_of_ofRaw fun hblank => by
      rw [hblank] at h
      rcases h with h | h <;> cases h
    exact ⟨htokens, List.exists_cons_of_ne_nil (htokens ▸ hne)⟩
  · intro allowIncludes number raw r h
    have hspelled : r.Spelled (Token.words raw) := Content.read_eq_rule_iff.mp h
    have hlen := hspelled.four_lt_length
    refine ⟨by rwa [Token.words, List.length_map] at hlen, hspelled.exists_word, ?_⟩
    intro field i hi
    exact PolicyFile.exists_token (Nat.lt_of_lt_of_le (Rule.Field.index?_lt_five hi) hlen)

/-- Begins with a blank that separates nothing, so its only token does not begin with the mark. -/
def Line.blankedInclude : String := "\u00a0!include\u00a0mail"

def Line.wordyRule : String := "*\x0b+ ask allow\tdeny "

theorem Line.tokens_in_place_wordy :
    Shape.ofRaw blankedInclude = .directive [⟨blankedInclude, 1⟩] ∧
    (∃ first rest, Token.scan blankedInclude = first :: rest) ∧
    (∃ r, (read false 1 wordyRule).content = .rule r ∧
      (∃ word, (Token.scan wordyRule)[4]? = some word ∧ word.value = r.action.decision.word) ∧
      ∃ t, (Token.scan wordyRule)[3]? = some t) ∧
    Rule.actionIndex? (Token.scan wordyRule) = some 4 ∧
    Rule.FieldsRead ((Token.scan wordyRule).take 4) := by
  have hshape : Shape.ofRaw blankedInclude = .directive [⟨blankedInclude, 1⟩] := by decide +kernel
  have hrule : (read false 1 wordyRule).content =
      .rule ⟨.wildcard, .empty, .literal "ask", .literal "allow", .deny⟩ := by
    decide +kernel
  have hindex : Rule.actionIndex? (Token.scan wordyRule) = some 4 := by decide +kernel
  have hnone : (Rule.read (Token.scan wordyRule)).findings = [] := by decide +kernel
  obtain ⟨hscan, hfirst⟩ := tokens_in_place.1 _ _ (.inl hshape)
  obtain ⟨-, hword, hfields⟩ := tokens_in_place.2.1 _ _ _ _ hrule
  obtain ⟨-, -, -, -, hread⟩ := (tokens_in_place.2.2 (Token.scan wordyRule)).2 4 hindex
  exact ⟨hshape, hscan ▸ hfirst, ⟨_, hrule, hword, hfields .destination 3 rfl⟩, hindex,
    hread hnone⟩

end QubePolicy
