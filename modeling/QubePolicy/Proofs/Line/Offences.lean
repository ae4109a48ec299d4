import QubePolicy.Proofs.Action.Offences
import QubePolicy.Proofs.Line.Grammar

/-!
# Tokens of a rule that offend

A line with its action word in the fifth place is told of token by token.

* `Rule.Field.Admits`       the texts that may stand as a field;
* `Rule.Offends`            the tokens that offend, and the columns at which they do: a field whose
                            text is not admitted, a parameter, or all parameters of a refusal;
* `Rule.told_read`          reading tells them from left to right, each once;
* `Line.diagnostics_read_offences`   so do the diagnostics of a line, and it is a rule exactly if no
                            token offends.
-/

namespace QubePolicy

namespace Rule

def Field.Admits : Field → String → Prop
  | .service, text => text = "*" ∨ Text.IsDotted text
  | .argument, text => text = "*" ∨ ∃ rest, text = "+" ++ rest
  | .source, text =>
    ∃ q : QubeSpecifier, (q.WellFormed ∧ q.legalIn .source = true) ∧ text = q.render
  | .destination, text =>
    ∃ q : QubeSpecifier, (q.WellFormed ∧ q.legalIn .destination = true) ∧ text = q.render
  | .action, text => ∃ d : Decision, text = d.word
  | .parameters, text => ∃ key value, (Parameter.mk key value).HasKey ∧ text = key ++ "=" ++ value

/-- **A token of a line offends** at some columns: a field that is not admitted where it stands, a
parameter of a grant, and the parameters of a refusal together, from the first to the last. -/
inductive Offends (tokens : List Token) : Nat → Span → Prop
  | field {i field t} : Field.positional[i]? = some field → tokens[i]? = some t →
      ¬field.Admits t.value → Offends tokens i t.span
  | parameter {i word span} {mode : Grant} : tokens[4]? = some word →
      word.value = (Decision.grant mode).word → mode.Offends (tokens.drop 5) i span →
      Offends tokens (i + 5) span
  | denied {word first last} : tokens[4]? = some word → word.value = Decision.deny.word →
      tokens[5]? = some first → tokens.getLast? = some last →
      Offends tokens 5 ⟨first.column, last.endColumn⟩

variable {tokens : List Token} {i : Nat} {t : Token} {field : Field} {span : Span}

/-! ## fields -/

theorem exists_service_iff {text : String} :
    (∃ s, ServiceSpecifier.read text = .ok s) ↔ Field.service.Admits text := by
  simp only [ServiceSpecifier.read_eq_ok_iff]
  constructor
  · rintro ⟨s, hs, rfl⟩
    cases s with
    | wildcard => exact .inl rfl
    | name n => exact .inr hs
  · rintro (rfl | hdotted)
    · exact ⟨.wildcard, trivial, rfl⟩
    · exact ⟨.name text, hdotted, rfl⟩

theorem exists_argument_iff {text : String} :
    (∃ a, ArgumentSpecifier.read text = .ok a) ↔ Field.argument.Admits text := by
  unfold ArgumentSpecifier.read
  split
  · next htext => exact iff_of_true ⟨_, rfl⟩ (.inl htext)
  · next hstar =>
    split
    · next rest hrest => exact iff_of_true ⟨_, rfl⟩ (.inr ⟨rest, Text.after?_eq_some_iff.mp hrest⟩)
    · next hnone =>
      refine iff_of_false (fun ⟨_, h⟩ => by cases h) ?_
      rintro (htext | ⟨rest, hrest⟩)
      · exact hstar htext
      · rw [Text.after?_eq_some_iff.mpr hrest] at hnone
        cases hnone

theorem exists_source_iff {text : String} :
    (∃ q, QubeSpecifier.readAt .source text = .ok q) ↔ Field.source.Admits text :=
  exists_congr fun _ => QubeSpecifier.readAt_eq_ok_iff

theorem exists_destination_iff {text : String} :
    (∃ q, QubeSpecifier.readAt .destination text = .ok q) ↔ Field.destination.Admits text :=
  exists_congr fun _ => QubeSpecifier.readAt_eq_ok_iff

theorem offends_iff (field : Field) (hfield : Field.positional[i]? = some field)
    (ht : tokens[i]? = some t) : Offends tokens i span ↔ ¬field.Admits t.value ∧ span = t.span := by
  constructor
  · intro h
    cases h with
    | field hfield' ht' hnot =>
      obtain rfl := Option.some.inj (hfield.symm.trans hfield')
      obtain rfl := Option.some.inj (ht.symm.trans ht')
      exact ⟨hnot, rfl⟩
    | parameter => simp [Field.positional] at hfield
    | denied => cases hfield
  · rintro ⟨hnot, rfl⟩
    exact .field hfield ht hnot

/-- **What is told of a field is told if its text is not admitted.** -/
theorem told_field {α : Type} {e : Except Problem α} (field : Field)
    (hfield : Field.positional[i]? = some field) (ht : tokens[i]? = some t)
    (he : (∃ a, e = .ok a) ↔ field.Admits t.value) :
    ToldInOrder (Offends tokens) i (i + 1) (Checked.ofExcept (.token t) e).spans := by
  refine .one (fun span => ?_) (Checked.length_spans_ofExcept _ e)
  rw [offends_iff field hfield ht, Checked.mem_spans_ofExcept, he]
  rfl

/-! ## actions -/

variable {word : Token} {d : Decision} {mode : Grant}

theorem decision_eq {other : Token} {e : Decision} (hword : tokens[4]? = some word)
    (hd : word.value = d.word) (hother : tokens[4]? = some other) (he : other.value = e.word) :
    d = e := by
  obtain rfl := Option.some.inj (hword.symm.trans hother)
  exact Option.some.inj (by rw [← Decision.ofWord?_word d, ← hd, he, Decision.ofWord?_word e])

theorem offends_iff_of_grant (hword : tokens[4]? = some word)
    (hmode : word.value = (Decision.grant mode).word) :
    Offends tokens (i + 5) span ↔ mode.Offends (tokens.drop 5) i span := by
  constructor
  · intro h
    generalize hj : i + 5 = j at h
    cases h with
    | field hfield =>
      rw [← hj] at hfield
      cases hfield
    | @parameter k _ _ mode' hword' hmode' hoffends =>
      obtain rfl : i = k := by omega
      cases decision_eq hword hmode hword' hmode'
      exact hoffends
    | denied hword' hdeny => cases decision_eq hword hmode hword' hdeny
  · exact .parameter hword hmode

theorem told_grant (hword : tokens[4]? = some word)
    (hmode : word.value = (Decision.grant mode).word) :
    ToldInOrder (Offends tokens) 5 ((tokens.drop 5).length + 5)
      (Action.readClauses mode [] (tokens.drop 5)).spans := by
  have htold := Action.told_readClauses mode [] [] (by simp) (tokens.drop 5)
  rw [List.nil_append, List.length_nil, Nat.zero_add] at htold
  have hshift := htold.shift 5 fun i span _ _ => offends_iff_of_grant hword hmode
  rwa [Nat.zero_add] at hshift

theorem ends_of_drop {n : Nat} {first : Token} {rest : List Token}
    (hrest : tokens.drop n = first :: rest) :
    tokens[n]? = some first ∧ tokens.getLast? = some (rest.getLast?.getD first) := by
  have hlen : ¬tokens.length ≤ n := fun hle => by
    rw [List.drop_eq_nil_of_le hle] at hrest
    cases hrest
  constructor
  · rw [← List.head?_drop, hrest]
    rfl
  · have hlast := List.getLast?_drop (i := n) (l := tokens)
    rw [if_neg hlen, hrest, List.getLast?_cons] at hlast
    exact hlast.symm

theorem offends_iff_of_deny (hword : tokens[4]? = some word)
    (hdeny : word.value = Decision.deny.word) : Offends tokens (i + 5) span ↔
      i = 0 ∧ span ∈ (Action.ofDecision (tokens.drop 5) .deny).spans := by
  constructor
  · intro h
    generalize hj : i + 5 = j at h
    cases h with
    | field hfield =>
      rw [← hj] at hfield
      cases hfield
    | parameter hword' hgrant => cases decision_eq hword hdeny hword' hgrant
    | denied _ _ hfirst hlast =>
      refine ⟨by omega, ?_⟩
      cases hrest : tokens.drop 5 with
      | nil =>
        rw [← List.head?_drop, hrest] at hfirst
        cases hfirst
      | cons first rest =>
        obtain ⟨hfirst', hlast'⟩ := ends_of_drop hrest
        rw [Option.some.inj (hfirst.symm.trans hfirst'), Option.some.inj (hlast.symm.trans hlast')]
        exact List.mem_singleton_self _
  · rintro ⟨rfl, hspan⟩
    cases hrest : tokens.drop 5 with
    | nil =>
      rw [hrest] at hspan
      cases hspan
    | cons first rest =>
      rw [hrest] at hspan
      obtain rfl := List.mem_singleton.mp hspan
      obtain ⟨hfirst, hlast⟩ := ends_of_drop hrest
      exact .denied hword hdeny hfirst hlast

theorem told_deny (hword : tokens[4]? = some word) (hdeny : word.value = Decision.deny.word) :
    ToldInOrder (Offends tokens) 5 6 (Action.ofDecision (tokens.drop 5) .deny).spans := by
  refine .one (fun span => ?_) ?_
  · rw [show 5 = 0 + 5 from rfl, offends_iff_of_deny hword hdeny, and_iff_right rfl]
  · cases tokens.drop 5 with
    | nil => exact Nat.zero_le _
    | cons first rest => exact Nat.le_refl _

/-- **What is told behind the action word** is told from left to right, up to the last token that
offends. -/
theorem told_action (hword : tokens[4]? = some word) (hd : word.value = d.word) :
    ∃ n, 5 ≤ n ∧ (∀ i span, Offends tokens i span → i < n) ∧
      ToldInOrder (Offends tokens) 5 n (Action.ofDecision (tokens.drop 5) d).spans := by
  cases d with
  | deny =>
    refine ⟨6, by omega, fun i span h => ?_, told_deny hword hd⟩
    by_contra hi
    obtain ⟨k, rfl⟩ : ∃ k, i = k + 5 := ⟨i - 5, by omega⟩
    have hk := ((offends_iff_of_deny hword hd).mp h).1
    omega
  | grant mode =>
    refine ⟨(tokens.drop 5).length + 5, by omega, fun i span h => ?_, ?_⟩
    · by_contra hi
      obtain ⟨k, rfl⟩ : ∃ k, i = k + 5 := ⟨i - 5, by omega⟩
      have hk := ((offends_iff_of_grant hword hd).mp h).lt_length
      omega
    · rw [Action.ofDecision, Checked.spans_map]
      exact told_grant hword hd

/-! ## rules -/

theorem spans_read {service argument source destination : Token} {parameters : List Token}
    (hd : word.value = d.word) :
    (read (service :: argument :: source :: destination :: word :: parameters)).spans =
      service.readService.spans ++ argument.readArgument.spans ++ (source.readQube .source).spans ++
        (destination.readQube .destination).spans ++ (Action.ofDecision parameters d).spans := by
  have hdecision : Decision.ofWord? word.value = some d := Decision.ofWord?_eq_some_iff.mpr hd
  have hisWord : isActionWord word = true := by
    rw [isActionWord, hdecision]
    rfl
  rw [read, if_pos hisWord, Action.read, hdecision]
  simp only [Checked.spans_apply, Checked.spans_map]

/-- **Reading tells of the tokens that offend**, of each once and from left to right. -/
theorem told_read (hword : tokens[4]? = some word) (hd : word.value = d.word) :
    ∃ n, (∀ i span, Offends tokens i span → i < n) ∧
      ToldInOrder (Offends tokens) 0 n (read tokens).spans := by
  obtain ⟨n, hn, hbound, haction⟩ := told_action hword hd
  obtain ⟨service, argument, source, destination, parameters, htokens⟩ := exists_fields hword
  have hservice : ToldInOrder (Offends tokens) 0 1 service.readService.spans :=
    told_field .service rfl (by rw [htokens]; rfl) exists_service_iff
  have hargument : ToldInOrder (Offends tokens) 1 2 argument.readArgument.spans :=
    told_field .argument rfl (by rw [htokens]; rfl) exists_argument_iff
  have hsource : ToldInOrder (Offends tokens) 2 3 (source.readQube .source).spans :=
    told_field .source rfl (by rw [htokens]; rfl) exists_source_iff
  have hdestination : ToldInOrder (Offends tokens) 3 4 (destination.readQube .destination).spans :=
    told_field .destination rfl (by rw [htokens]; rfl) exists_destination_iff
  have hnone : ToldInOrder (Offends tokens) 4 5 [] := by
    refine .one (fun span => iff_of_false List.not_mem_nil fun h => ?_) (Nat.zero_le 1)
    exact ((offends_iff .action rfl hword).mp h).1 ⟨d, hd⟩
  have hfields := ((hservice.append hargument (by omega) (by omega)).append hsource (by omega)
    (by omega)).append hdestination (by omega) (by omega)
  have hrest := hnone.append haction (by omega) hn
  have hspans : (read tokens).spans = service.readService.spans ++ argument.readArgument.spans ++
      (source.readQube .source).spans ++ (destination.readQube .destination).spans ++
        (Action.ofDecision (tokens.drop 5) d).spans := by
    rw [htokens]
    exact spans_read hd
  refine ⟨n, hbound, ?_⟩
  rw [hspans]
  exact hfields.append hrest (by omega) (by omega)

end Rule

/-! ## lines -/

namespace Line

variable {raw : String} {tokens : List Token}

theorem diagnostics_of_rule (hshape : Shape.ofRaw raw = .rule tokens) (allowIncludes : Bool)
    (number : Nat) :
    ((read allowIncludes number raw).diagnostics.map fun d => (d.line, d.span)) =
      (Rule.read tokens).spans.map ((number : Int), ·) ∧
    ((∃ r, (read allowIncludes number raw).content = .rule r) ↔ (Rule.read tokens).spans = []) := by
  have hcontent : (read allowIncludes number raw).content = Content.ofRule tokens := by
    show Content.ofShape allowIncludes (Shape.ofRaw raw) = _
    rw [hshape]
    rfl
  rw [diagnostics, hcontent]
  rcases hread : Rule.read tokens with r | findings
  · have hrule : Content.ofRule tokens = .rule r := Content.ofRule_eq_rule_iff.mpr hread
    rw [hrule]
    exact ⟨rfl, iff_of_true ⟨r, rfl⟩ rfl⟩
  · have hmalformed : Content.ofRule tokens = .malformed findings := by
      rw [Content.ofRule, hread]
    have hne : findings ≠ [] := fun hnil => Rule.reasoned_read tokens (by rw [hread, hnil])
    have htold : (Checked.invalid findings : Checked Rule).spans ≠ [] := fun hnil =>
      hne (List.map_eq_nil_iff.mp hnil)
    rw [hmalformed]
    refine ⟨?_, iff_of_false (fun ⟨_, h⟩ => by cases h) htold⟩
    simp only [Checked.spans, Checked.findings, List.map_map]
    rfl

/-- **One diagnostic for each token that offends, and none is missed.** On a line with its action
word in the fifth place the diagnostics are those of the tokens that offend, from left to right, each
at the columns at which it does; the line is a rule exactly if there are none. -/
theorem diagnostics_read_offences {word : Token} (hshape : Shape.ofRaw raw = .rule tokens)
    (hword : tokens[4]? = some word) (haction : word.value ∈ ["allow", "ask", "deny"])
    (allowIncludes : Bool) (number : Nat) :
    (∃ offences : List (Nat × Span), offences.Pairwise (fun o p => o.1 < p.1) ∧
      (∀ i span, (i, span) ∈ offences ↔ Rule.Offends tokens i span) ∧
      ((read allowIncludes number raw).diagnostics.map fun d => (d.line, d.span)) =
        offences.map fun o => ((number : Int), o.2)) ∧
    ((∃ r, (read allowIncludes number raw).content = .rule r) ↔
      ∀ i span, ¬Rule.Offends tokens i span) := by
  obtain ⟨d, hd⟩ : ∃ d : Decision, word.value = d.word := by
    simp only [List.mem_cons, List.not_mem_nil, or_false] at haction
    rcases haction with h | h | h
    · exact ⟨.grant .allow, h⟩
    · exact ⟨.grant .ask, h⟩
    · exact ⟨.deny, h⟩
  obtain ⟨hdiagnostics, hrule⟩ := diagnostics_of_rule hshape allowIncludes number
  obtain ⟨n, hbound, offences, hsorted, hmem, hspans⟩ := Rule.told_read hword hd
  have hmem' (i : Nat) (span : Span) : (i, span) ∈ offences ↔ Rule.Offends tokens i span :=
    (hmem i span).trans (and_iff_right_of_imp fun h => ⟨Nat.zero_le i, hbound i span h⟩)
  rw [hdiagnostics, hrule, ← hspans, List.map_map, List.map_eq_nil_iff,
    List.eq_nil_iff_forall_not_mem]
  refine ⟨⟨offences, hsorted, hmem', rfl⟩, ?_⟩
  simp only [← hmem', Prod.forall]

def crowdedLine : String :=
  "qubes *x @default vm ask note default_target=@tag:a key=1 key=2 target=b"

theorem diagnostics_read_crowdedLine :
    Shape.ofRaw crowdedLine = .rule (Token.scan crowdedLine) ∧
    (Token.scan crowdedLine)[4]? = some ⟨"ask", 22⟩ ∧
    (∃ offences : List (Nat × Span), offences.length = 7 ∧
      offences.Pairwise (fun o p => o.1 < p.1) ∧
      ∀ i span, (i, span) ∈ offences ↔ Rule.Offends (Token.scan crowdedLine) i span) ∧
    ¬∃ r, (read false 1 crowdedLine).content = .rule r := by
  have hshape : Shape.ofRaw crowdedLine = .rule (Token.scan crowdedLine) := by decide +kernel
  have hword : (Token.scan crowdedLine)[4]? = some ⟨"ask", 22⟩ := by decide +kernel
  obtain ⟨⟨offences, hsorted, hmem, htold⟩, hrule⟩ :=
    diagnostics_read_offences hshape hword (by decide) false 1
  have hlength : offences.length = 7 := by
    have hsame := congrArg List.length htold
    rw [List.length_map, List.length_map] at hsame
    rw [← hsame]
    decide +kernel
  refine ⟨hshape, hword, ⟨offences, hlength, hsorted, hmem⟩, fun h => ?_⟩
  obtain ⟨⟨i, span⟩, ho⟩ := List.exists_mem_of_length_pos (by omega : 0 < offences.length)
  exact hrule.mp h i span ((hmem i span).mp ho)

end Line

end QubePolicy
