import QubePolicy.Proofs.Line.Grammar

/-!
# Rules written and read back

* `Rule.words_render`        a rule that can be written is written as its words;
* `Rule.content_read_render` rules that are read can be written, and are read back.
-/

namespace QubePolicy.Rule

theorem words_render {r : Rule} (h : r.WellFormed) : Token.words r.render = r.words :=
  Token.words_intercalate fun _ hw => isText_of_mem_words h hw

/-- **Every rule that a line says can be written, and the line it is written as says it.** -/
theorem content_read_render :
    (∀ (allowIncludes : Bool) (number : Nat) (raw : String) (r : Rule),
      (Line.read allowIncludes number raw).content = .rule r → r.WellFormed) ∧
    ∀ r : Rule, r.WellFormed → ∀ (allowIncludes : Bool) (number : Nat),
      Line.read allowIncludes number r.render = ⟨r.render, number, .rule r⟩ := by
  constructor
  · intro allowIncludes number raw r h
    have hspelled : r.Spelled (Token.words raw) := Content.read_eq_rule_iff.mp h
    exact wellFormed_of_spelled hspelled fun w hw => (Token.isText_of_mem_words hw).noSeparator
  · intro r h allowIncludes number
    have hspelled : r.Spelled (Token.words r.render) := by
      rw [words_render h]
      exact spelled_words h
    rw [Line.read, Content.read_eq_rule_iff.mpr hspelled]

def signing : Rule :=
  ⟨.name "qubes.Gpg", .specific "sign", .tag "work", .dispVMNamed "keys",
    .grant .ask (some (.literal "vault")) [⟨"notify", "yes=no"⟩, ⟨"user", ""⟩]⟩

def signingLine : String :=
  "qubes.Gpg\t+sign @tag:work @dispvm:keys ask notify=yes=no default_target=vault  user= "

/-- The target moves in front of the parameters, and the rule stays the same. -/
theorem content_read_signing :
    (Line.read false 7 signingLine).content = .rule signing ∧ signing.WellFormed ∧
    Line.read true 7 signing.render = ⟨signing.render, 7, .rule signing⟩ := by
  have hread : (Line.read false 7 signingLine).content = .rule signing := by
    decide +kernel
  have hwell : signing.WellFormed := content_read_render.1 false 7 signingLine signing hread
  exact ⟨hread, hwell, content_read_render.2 signing hwell true 7⟩

end QubePolicy.Rule
