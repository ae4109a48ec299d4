import QubePolicy.Proofs.Line.Grammar

/-!
# What is told of a line

Whatever reading a line tells is about the line itself and keeps the file from being saved; only
the comparison of lines gives warnings. It is told at tokens of the line, or behind one of them.

* `Problem.IsError`          a problem that keeps a file from being saved;
* `Finding.Located`          what can be told of a line with some tokens, and where;
* `Rule.located_read`        what is told of the tokens of a rule is such;
* `Line.exists_of_mem_diagnostics`   and so is what is told of a line by itself.
-/

namespace QubePolicy

def Problem.IsError (p : Problem) : Prop := p.kind.severity = .error

def Problem.IsMissing (p : Problem) : Prop :=
  p.kind = .missingField ∨ p.kind = .missingIncludePath

theorem Diagnostic.Kind.severity_eq_error_iff {k : Kind} :
    k.severity = .error ↔ k ≠ .redundantRule := by
  cases k <;> simp [severity, category]

theorem Diagnostic.isError_onLine_iff {f : Finding} {n : Int} :
    (f.onLine n).isError = true ↔ f.problem.IsError := by
  simp [Finding.onLine, make, isError, Problem.IsError]

theorem Problem.IsMissing.isError {p : Problem} (h : p.IsMissing) : p.IsError := by
  rw [IsError, Diagnostic.Kind.severity_eq_error_iff]
  rcases h with h | h <;> simp [h]

/-! ## places -/

namespace Finding

/-- **What can be told of a line** with the given tokens: an error at a token, at some tokens in
their order or at the value of a target, or that something is missing behind a token. -/
inductive Located (tokens : List Token) : Finding → Prop
  | token {p t} : t ∈ tokens → p.IsError → Located tokens ⟨p, .token t⟩
  | all {p first rest} : (first :: rest).Sublist tokens → p.IsError →
      Located tokens ⟨p, .all first rest⟩
  /-- nothing is told of an empty value but that a name is missing -/
  | value {p t text} {mode : Grant} : t ∈ tokens →
      t.assignment? = some (mode.targetKey, text) → p.IsError →
      (text = "" → p = .missingQubeName) → Located tokens ⟨p, .value t mode.targetKey text⟩
  | behind {p t} : t ∈ tokens → p.IsMissing → Located tokens ⟨p, .behind t⟩
  | start {p} : p.IsMissing → Located tokens ⟨p, .start⟩

namespace Located

variable {tokens more : List Token} {t : Token} {f : Finding}

theorem isError (h : f.Located tokens) : f.problem.IsError := by
  cases h with
  | token _ herror | all _ herror | value _ _ herror => exact herror
  | behind _ hmissing | start hmissing => exact hmissing.isError

theorem mono (h : f.Located tokens) (hsub : tokens.Sublist more) : f.Located more := by
  cases h with
  | token ht herror => exact .token (hsub.subset ht) herror
  | all hall herror => exact .all (hall.trans hsub) herror
  | value ht hassign herror hempty => exact .value (hsub.subset ht) hassign herror hempty
  | behind ht hmissing => exact .behind (hsub.subset ht) hmissing
  | start hmissing => exact .start hmissing

theorem of_mem (h : f.Located [t]) (ht : t ∈ tokens) : f.Located tokens :=
  h.mono (List.singleton_sublist.mpr ht)

end Located

end Finding

open Finding (Located)

/-! ## specifiers -/

theorem ServiceSpecifier.isError_of_read {text : String} {p : Problem}
    (h : read text = .error p) : p.IsError := by
  unfold read at h
  split at h
  · cases h
  · split at h <;> cases h
    rfl

theorem ArgumentSpecifier.isError_of_read {text : String} {p : Problem}
    (h : read text = .error p) : p.IsError := by
  unfold read at h
  split at h
  · cases h
  · split at h <;> cases h
    rfl

namespace QubeSpecifier

theorem isError_of_named {part : NamedPart} {isName : String → Bool} {make : String → QubeSpecifier}
    {text name : String} {p : Problem} (h : named part isName make text name = .error p) :
    p.IsError := by
  unfold named at h
  split at h <;> cases h
  rfl

theorem isError_of_read {text : String} {p : Problem} (h : read text = .error p) :
    p.IsError := by
  unfold read at h
  repeat' split at h
  all_goals first
    | exact isError_of_named h
    | cases h
  all_goals rfl

theorem isError_of_readAt {position : Position} {text : String} {p : Problem}
    (h : readAt position text = .error p) : p.IsError := by
  unfold readAt at h
  split at h
  · split at h <;> cases h
    exact Diagnostic.Kind.severity_eq_error_iff.mpr fun hkind => by cases hkind
  · next hread =>
    cases h
    exact isError_of_read hread

theorem readAt_empty (position : Position) :
    readAt position "" = .error .missingQubeName := rfl

end QubeSpecifier

namespace Token

theorem located_readService (t : Token) : t.readService.All (Located [t]) :=
  Checked.all_ofExcept fun _ hp =>
    .token List.mem_cons_self (ServiceSpecifier.isError_of_read hp)

theorem located_readArgument (t : Token) : t.readArgument.All (Located [t]) :=
  Checked.all_ofExcept fun _ hp =>
    .token List.mem_cons_self (ArgumentSpecifier.isError_of_read hp)

theorem located_readQube (position : Position) (t : Token) :
    (t.readQube position).All (Located [t]) :=
  Checked.all_ofExcept fun _ hp =>
    .token List.mem_cons_self (QubeSpecifier.isError_of_readAt hp)

end Token

/-! ## actions -/

namespace Action

variable {mode : Grant} {seen : List String}

theorem located_readClause (t : Token) : (readClause mode seen t).All (Located [t]) := by
  have ht : t ∈ [t] := List.mem_cons_self
  unfold readClause
  split
  · exact Checked.all_refused (.token ht rfl)
  · next key value hassign =>
    split
    · exact Checked.all_refused (.token ht rfl)
    · split
      · exact Checked.all_refused (.token ht rfl)
      · split
        · next hkey =>
          subst hkey
          refine (Checked.all_ofExcept fun p hp => ?_).map _
          refine .value ht hassign (QubeSpecifier.isError_of_readAt hp) fun hvalue => ?_
          rw [hvalue, QubeSpecifier.readAt_empty] at hp
          exact (Except.error.inj hp).symm
        · exact Checked.all_valid _

theorem located_readClauses (ts : List Token) : (readClauses mode seen ts).All (Located ts) := by
  induction ts generalizing seen with
  | nil => exact Checked.all_valid _
  | cons t ts ih =>
    have hfirst : (readClause mode seen t).All (Located (t :: ts)) :=
      (located_readClause t).imp fun f hf => hf.of_mem List.mem_cons_self
    exact (hfirst.map _).apply (ih.imp fun f hf => hf.mono (List.sublist_cons_self t ts))

theorem located_read (word : Token) (ts : List Token) :
    (read word ts).All (Located (word :: ts)) := by
  unfold read
  split
  · next d _ =>
    cases d with
    | deny =>
      cases ts with
      | nil => exact Checked.all_valid _
      | cons t ts => exact Checked.all_refused (.all (List.sublist_cons_self word _) rfl)
    | grant mode =>
      exact ((located_readClauses ts).imp fun f hf => hf.mono (List.sublist_cons_self word ts)).map _
  · exact Checked.all_refused (.token List.mem_cons_self rfl)

end Action

/-! ## rules -/

namespace Rule

theorem located_of_mem_fieldFindings {ts : List Token} {f : Finding}
    (hf : f ∈ fieldFindings ts) : f.Located ts := by
  unfold fieldFindings at hf
  split at hf
  · cases hf
  · rcases List.mem_append.mp hf with hf | hf
    · exact (Token.located_readService _ f hf).of_mem (by simp)
    split at hf
    · cases hf
    · rcases List.mem_append.mp hf with hf | hf
      · exact (Token.located_readArgument _ f hf).of_mem (by simp)
      split at hf
      · cases hf
      · rcases List.mem_append.mp hf with hf | hf
        · exact (Token.located_readQube _ _ f hf).of_mem (by simp)
        split at hf
        · cases hf
        · exact (Token.located_readQube _ _ f hf).of_mem (by simp)

theorem located_of_mem_misplacedWord {head : List Token} {word : Token} {parameters : List Token}
    {f : Finding} (hf : f ∈ misplacedWord head word parameters) :
    f.Located (head ++ word :: parameters) := by
  unfold misplacedWord at hf
  simp only [List.mem_append] at hf
  rcases hf with ((hf | hf) | hf) | hf
  · split at hf
    · rw [List.mem_singleton.mp hf]
      exact .token (by simp) rfl
    · cases hf
  · obtain ⟨t, ht, rfl⟩ := List.mem_map.mp hf
    exact .token (List.mem_append_left _ (List.mem_of_mem_drop ht)) rfl
  · exact (located_of_mem_fieldFindings hf).mono (List.sublist_append_left head _)
  · exact (Action.located_read word parameters f hf).mono (List.sublist_append_right head _)

theorem located_of_mem_noWord {ts : List Token} {f : Finding} (hf : f ∈ noWord ts) :
    f.Located ts := by
  rcases List.mem_cons.mp hf with rfl | hf
  · split
    · unfold Place.after
      split
      · next t hlast => exact .behind (List.mem_of_getLast? hlast) (.inl rfl)
      · exact .start (.inl rfl)
    · next t rest hdrop =>
      exact .token (List.mem_of_mem_drop (hdrop ▸ List.mem_cons_self)) rfl
  · exact located_of_mem_fieldFindings hf

theorem located_of_mem_misplaced {ts : List Token} {f : Finding} (hf : f ∈ misplaced ts) :
    f.Located ts := by
  have hparts := List.takeWhile_append_dropWhile (p := (!isActionWord ·)) (l := ts)
  unfold misplaced at hf
  split at hf
  · next word parameters hrest =>
    rw [hrest] at hparts
    rw [← hparts]
    exact located_of_mem_misplacedWord hf
  · exact located_of_mem_noWord hf

/-- **What is told of the tokens of a rule is an error** at these tokens, or behind them. -/
theorem located_read (ts : List Token) : (read ts).All (Located ts) := by
  unfold read
  split
  · next service argument source destination word parameters =>
    split
    · have hword := (Action.located_read word parameters).imp fun f hf =>
        hf.mono (List.sublist_append_right [service, argument, source, destination] _)
      have hservice : (Token.readService service).All
          (Located (service :: argument :: source :: destination :: word :: parameters)) :=
        (Token.located_readService service).imp fun f hf => hf.of_mem (by simp)
      exact ((((hservice.map _).apply
        ((Token.located_readArgument argument).imp fun f hf => hf.of_mem (by simp))).apply
        ((Token.located_readQube .source source).imp fun f hf => hf.of_mem (by simp))).apply
        ((Token.located_readQube .destination destination).imp fun f hf =>
          hf.of_mem (by simp))).apply hword
    · exact fun f hf => located_of_mem_misplaced hf
  · exact fun f hf => located_of_mem_misplaced hf

end Rule

/-! ## directives -/

namespace Directive

theorem located_readWord (allowIncludes : Bool) (t : Token) :
    (readWord allowIncludes t).All (Located [t]) := by
  have ht : t ∈ [t] := List.mem_cons_self
  unfold readWord
  split
  · exact Checked.all_refused (.token ht rfl)
  · split
    · exact Checked.all_valid _
    · exact Checked.all_refused (.token ht rfl)

theorem located_readPath (keyword : Token) (ts : List Token) :
    (readPath keyword ts).All (Located (keyword :: ts)) := by
  match ts with
  | [] => exact Checked.all_refused (.behind List.mem_cons_self (.inr rfl))
  | [path] => exact Checked.all_valid _
  | first :: second :: rest =>
    intro f hf
    obtain ⟨t, ht, rfl⟩ := List.mem_map.mp hf
    exact .token (List.mem_cons_of_mem _ (List.mem_cons_of_mem _ ht)) rfl

end Directive

/-! ## lines -/

namespace Content

variable {allowIncludes : Bool} {fs : List Finding} {f : Finding}

theorem located_of_ofDirective {tokens : List Token}
    (h : ofDirective allowIncludes tokens = .malformed fs) (hf : f ∈ fs) : f.Located tokens := by
  cases tokens with
  | nil =>
    cases h
    cases hf
  | cons keyword rest =>
    have hword : (Directive.readWord allowIncludes keyword).All (Finding.Located (keyword :: rest)) :=
      (Directive.located_readWord allowIncludes keyword).imp fun f hf => hf.of_mem List.mem_cons_self
    have hall := (hword.map Content.includes).apply (Directive.located_readPath keyword rest)
    rw [ofDirective] at h
    cases hread : Content.includes <$> Directive.readWord allowIncludes keyword <*>
        Directive.readPath keyword rest with
    | valid c =>
      obtain ⟨_, path, hd, -, rfl⟩ := Checked.apply_eq_valid_iff.mp hread
      obtain ⟨d, -, rfl⟩ := Checked.map_eq_valid_iff.mp hd
      rw [hread] at h
      cases h
    | invalid gs =>
      rw [hread] at h hall
      cases h
      exact hall f hf

theorem located_of_ofRule {tokens : List Token} (h : ofRule tokens = .malformed fs) (hf : f ∈ fs) :
    f.Located tokens := by
  have hall := Rule.located_read tokens
  unfold ofRule at h
  cases hread : Rule.read tokens with
  | valid r =>
    rw [hread] at h
    cases h
  | invalid gs =>
    rw [hread] at h hall
    cases h
    exact hall f hf

theorem located_of_malformed {raw : String} (h : read allowIncludes raw = .malformed fs)
    (hf : f ∈ fs) : f.Located (Token.scan raw) := by
  unfold read at h
  cases hshape : Shape.ofRaw raw with
  | blank | comment text =>
    rw [hshape] at h
    cases h
  | directive tokens =>
    rw [hshape] at h
    rw [← Shape.tokens_of_ofRaw_eq_directive hshape]
    exact located_of_ofDirective h hf
  | rule tokens =>
    rw [hshape] at h
    rw [← Shape.tokens_of_ofRaw_eq_rule hshape]
    exact located_of_ofRule h hf

end Content

/-- **What is told of a line by itself is an error**, at its tokens or behind them. -/
theorem Line.exists_of_mem_diagnostics {allowIncludes : Bool} {number : Nat} {raw : String}
    {d : Diagnostic} (hd : d ∈ (Line.read allowIncludes number raw).diagnostics) :
    ∃ f : Finding, f.Located (Token.scan raw) ∧ d = f.onLine number := by
  unfold diagnostics at hd
  split at hd
  · next findings hfindings =>
    obtain ⟨f, hf, rfl⟩ := List.mem_map.mp hd
    exact ⟨f, Content.located_of_malformed hfindings hf, rfl⟩
  · cases hd

end QubePolicy
