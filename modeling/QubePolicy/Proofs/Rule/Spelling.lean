import QubePolicy.Proofs.Action.Spelling
import QubePolicy.Rule.Reader

/-!
# Spelling rules

A rule is spelled by the words of its four fields and those of its action behind them.

* `Rule.Spelled`             some words are those of a rule;
* `Rule.WellFormed`          a rule that can be written;
* `Rule.read_eq_valid_iff`   reading gives the rule whose words are read;
* `Rule.spelled_words`       the words of a rule that can be written spell it;
* `Rule.reasoned_read`       what is no rule is refused for a reason.
-/

namespace QubePolicy

open Token (NoSeparator IsText)

/-! ## spelling -/

/-- The words are those of the rule: four specifiers that may stand where they do, and an action. -/
structure Rule.Spelled (words : List String) (r : Rule) : Prop where
  service : r.service.WellFormed
  argument : r.argument.WellFormed
  source : r.source.WellFormed ∧ r.source.form ∉ [.default, .dispVM]
  destination : r.destination.WellFormed
  action : ∃ rest, r.action.Spelled rest ∧ words =
    r.service.render :: r.argument.render :: r.source.render :: r.destination.render :: rest

namespace Rule

theorem legalIn_source_iff {q : QubeSpecifier} :
    q.legalIn .source = true ↔ q.form ∉ [.default, .dispVM] := by
  cases q <;> simp [QubeSpecifier.legalIn, QubeSpecifier.form, QubeSpecifier.Form.illegalPositions]

theorem legalIn_destination (q : QubeSpecifier) : q.legalIn .destination = true := by
  cases q <;> simp [QubeSpecifier.legalIn, QubeSpecifier.form, QubeSpecifier.Form.illegalPositions]

/-! ## the fields -/

theorem readService_eq_valid_iff {t : Token} {s : ServiceSpecifier} :
    t.readService = .valid s ↔ s.WellFormed ∧ t.value = s.render :=
  Checked.ofExcept_eq_valid_iff.trans ServiceSpecifier.read_eq_ok_iff

theorem readArgument_eq_valid_iff {t : Token} (ht : NoSeparator t.value) {a : ArgumentSpecifier} :
    t.readArgument = .valid a ↔ a.WellFormed ∧ t.value = a.render :=
  Checked.ofExcept_eq_valid_iff.trans (ArgumentSpecifier.read_eq_ok_iff ht)

theorem readSource_eq_valid_iff {t : Token} {q : QubeSpecifier} :
    t.readQube .source = .valid q ↔
      (q.WellFormed ∧ q.form ∉ [.default, .dispVM]) ∧ t.value = q.render := by
  rw [Token.readQube, Checked.ofExcept_eq_valid_iff, QubeSpecifier.readAt_eq_ok_iff,
    legalIn_source_iff]

theorem readDestination_eq_valid_iff {t : Token} {q : QubeSpecifier} :
    t.readQube .destination = .valid q ↔ q.WellFormed ∧ t.value = q.render := by
  rw [Token.readQube, Checked.ofExcept_eq_valid_iff, QubeSpecifier.readAt_eq_ok_iff,
    and_iff_left (legalIn_destination q)]

/-! ## rules -/

theorem isActionWord_of_spelled {word : Token} {ws : List String} {a : Action}
    (h : a.Spelled (word.value :: ws)) : isActionWord word = true := by
  have hword : Decision.ofWord? word.value = some a.decision :=
    Decision.ofWord?_eq_some_iff.mpr h.head_eq
  rw [isActionWord, hword]
  rfl

theorem read_fields_eq_valid_iff {service argument source destination word : Token}
    {parameters : List Token} (hargument : NoSeparator argument.value) {r : Rule} :
    Rule.mk <$> service.readService <*> argument.readArgument <*> source.readQube .source <*>
        destination.readQube .destination <*> Action.read word parameters = .valid r ↔
      r.Spelled (service.value :: argument.value :: source.value :: destination.value ::
        word.value :: parameters.map Token.value) := by
  simp only [Checked.apply_eq_valid_iff, Checked.map_eq_valid_iff]
  constructor
  · rintro ⟨_, a, ⟨_, d, ⟨_, q, ⟨_, g, ⟨s, hs, rfl⟩, hg, rfl⟩, hq, rfl⟩, hd, rfl⟩, ha, rfl⟩
    obtain ⟨hs, hservice⟩ := readService_eq_valid_iff.mp hs
    obtain ⟨hg, harg⟩ := (readArgument_eq_valid_iff hargument).mp hg
    obtain ⟨hq, hsource⟩ := readSource_eq_valid_iff.mp hq
    obtain ⟨hd, hdestination⟩ := readDestination_eq_valid_iff.mp hd
    refine ⟨hs, hg, hq, hd, _, Action.read_eq_valid_iff.mp ha, ?_⟩
    rw [hservice, harg, hsource, hdestination]
  · rintro ⟨hs, hg, hq, hd, rest, ha, hwords⟩
    simp only [List.cons.injEq] at hwords
    obtain ⟨hservice, harg, hsource, hdestination, rfl⟩ := hwords
    exact ⟨_, r.action, ⟨_, r.destination, ⟨_, r.source, ⟨_, r.argument, ⟨r.service,
      readService_eq_valid_iff.mpr ⟨hs, hservice⟩, rfl⟩,
      (readArgument_eq_valid_iff hargument).mpr ⟨hg, harg⟩, rfl⟩,
      readSource_eq_valid_iff.mpr ⟨hq, hsource⟩, rfl⟩,
      readDestination_eq_valid_iff.mpr ⟨hd, hdestination⟩, rfl⟩,
      Action.read_eq_valid_iff.mpr ha, rfl⟩

/-- **Reading gives the rule whose words are read.** -/
theorem read_eq_valid_iff {tokens : List Token} (htokens : ∀ t ∈ tokens, NoSeparator t.value)
    {r : Rule} : read tokens = .valid r ↔ r.Spelled (tokens.map Token.value) := by
  constructor
  · intro h
    unfold read at h
    split at h
    · next service argument source destination word parameters =>
      split at h
      · exact (read_fields_eq_valid_iff (htokens argument (by simp))).mp h
      · cases h
    · cases h
  · intro h
    obtain ⟨_, haction, hwords⟩ := h.action
    obtain ⟨word, ws, rfl⟩ := haction.exists_cons
    obtain ⟨service, rest, rfl, -, hrest⟩ := List.map_eq_cons_iff.mp hwords
    obtain ⟨argument, rest, rfl, -, hrest⟩ := List.map_eq_cons_iff.mp hrest
    obtain ⟨source, rest, rfl, -, hrest⟩ := List.map_eq_cons_iff.mp hrest
    obtain ⟨destination, rest, rfl, -, hrest⟩ := List.map_eq_cons_iff.mp hrest
    obtain ⟨t, parameters, rfl, rfl, -⟩ := List.map_eq_cons_iff.mp hrest
    rw [read, if_pos (isActionWord_of_spelled haction)]
    exact (read_fields_eq_valid_iff (htokens argument (by simp))).mpr h

/-! ## reasons -/

theorem misplacedWord_ne_nil {head : List Token} (hlen : head.length ≠ 4) (word : Token)
    (parameters : List Token) : misplacedWord head word parameters ≠ [] := by
  intro hnil
  unfold misplacedWord at hnil
  simp only [List.append_eq_nil_iff] at hnil
  obtain ⟨⟨⟨hfew, hmany⟩, -⟩, -⟩ := hnil
  by_cases hlt : head.length < 4
  · rw [if_pos hlt] at hfew
    cases hfew
  · have hdrop : head.length ≤ 4 := List.drop_eq_nil_iff.mp (List.map_eq_nil_iff.mp hmany)
    omega

theorem misplaced_ne_nil {tokens : List Token}
    (hfifth : ∀ word, tokens[4]? = some word → isActionWord word = false) :
    misplaced tokens ≠ [] := by
  have hparts := List.takeWhile_append_dropWhile (p := (!isActionWord ·)) (l := tokens)
  unfold misplaced
  split
  · next word parameters hword =>
    have haction : isActionWord word = true := by
      have := List.head?_dropWhile_not (!isActionWord ·) tokens
      rw [hword] at this
      simpa using this
    refine misplacedWord_ne_nil (fun hlen => ?_) word parameters
    have hget : tokens[4]? = some word := by
      rw [← hparts, hword, List.getElem?_append_right (by omega), hlen]
      rfl
    rw [hfifth word hget] at haction
    cases haction
  · simp [noWord]

theorem read_eq_misplaced {tokens : List Token}
    (hfifth : ∀ word, tokens[4]? = some word → isActionWord word = false) :
    read tokens = .invalid (misplaced tokens) := by
  unfold read
  split
  · next service argument source destination word parameters =>
    rw [if_neg (by simp [hfifth word rfl])]
  · rfl

theorem exists_fields {tokens : List Token} {word : Token} (hword : tokens[4]? = some word) :
    ∃ service argument source destination parameters,
      tokens = service :: argument :: source :: destination :: word :: parameters := by
  match tokens, hword with
  | service :: argument :: source :: destination :: fifth :: parameters, hfifth =>
    obtain rfl := Option.some.inj hfifth
    exact ⟨service, argument, source, destination, parameters, rfl⟩

/-- **What is no rule is refused for a reason.** -/
theorem reasoned_read (tokens : List Token) : (read tokens).Reasoned := by
  by_cases hfifth : ∀ word, tokens[4]? = some word → isActionWord word = false
  · rw [read_eq_misplaced hfifth]
    exact fun h => misplaced_ne_nil hfifth (by injection h)
  · obtain ⟨word, hword, haction⟩ : ∃ word, tokens[4]? = some word ∧ isActionWord word = true := by
      simpa using hfifth
    obtain ⟨service, argument, source, destination, parameters, rfl⟩ := exists_fields hword
    rw [read, if_pos haction]
    exact (((((Checked.reasoned_ofExcept _ _).map _).apply
      (Checked.reasoned_ofExcept _ _)).apply (Checked.reasoned_ofExcept _ _)).apply
      (Checked.reasoned_ofExcept _ _)).apply (Action.reasoned_read word parameters)

/-! ## rules that can be written -/

/-- Every part can be written and may stand where it does. -/
structure WellFormed (r : Rule) : Prop where
  service : r.service.WellFormed
  argument : r.argument.WellFormed
  source : r.source.WellFormed ∧ r.source.legalIn .source = true
  destination : r.destination.WellFormed ∧ r.destination.legalIn .destination = true
  action : r.action.WellFormed

variable {r : Rule}

theorem wellFormed_of_spelled {words : List String} (h : r.Spelled words)
    (hwords : ∀ w ∈ words, NoSeparator w) : r.WellFormed := by
  obtain ⟨rest, haction, rfl⟩ := h.action
  refine ⟨h.service, h.argument, ⟨h.source.1, legalIn_source_iff.mpr h.source.2⟩,
    ⟨h.destination, legalIn_destination _⟩, Action.wellFormed_of_spelled haction ?_⟩
  intro w hw
  exact hwords w (by simp [hw])

/-- **The words of a rule that can be written spell it.** -/
theorem spelled_words (h : r.WellFormed) : r.Spelled r.words where
  service := h.service
  argument := h.argument
  source := ⟨h.source.1, legalIn_source_iff.mp h.source.2⟩
  destination := h.destination.1
  action := ⟨r.action.words, Action.spelled_words h.action, rfl⟩

theorem isText_of_mem_words (h : r.WellFormed) {w : String} (hw : w ∈ r.words) : IsText w := by
  rcases List.mem_cons.mp hw with rfl | hw
  · exact h.service.isText_render
  rcases List.mem_cons.mp hw with rfl | hw
  · exact h.argument.isText_render
  rcases List.mem_cons.mp hw with rfl | hw
  · exact h.source.1.isText_render
  rcases List.mem_cons.mp hw with rfl | hw
  · exact h.destination.1.isText_render
  · exact Action.isText_of_mem_words h.action hw

end Rule

end QubePolicy
