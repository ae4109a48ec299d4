import QubePolicy.Proofs.Evaluation.Scan
import QubePolicy.Proofs.Line.Grammar

/-!
# Rules that some call meets

For every rule that can be written there is a call that it is about, made up of what its specifiers
ask for. The one exception is a rule about calls from a disposable that is still to be made: a
specifier may ask for such a caller, and no caller is one.

* `QubeSpecifier.Form.isQube`   the forms that are about qubes that exist;
* `QubeSpecifier.sampleQube`, `QubeSpecifier.sampleDestination`, `Rule.sample`   a call made up of
                                what is asked for;
* `Rule.exists_covers_iff`      a rule is about some call just if its specifier for the caller is of
                                such a form;
* `explain_oneRule`             a file of one rule decides the calls that the rule covers;
* `Line.covers_some_iff`        of the rules that lines say, those about disposable callers are
                                dead, and no other one.
-/

namespace QubePolicy

/-! ## services and arguments -/

def ServiceSpecifier.sample : ServiceSpecifier → String
  | .wildcard => "qubes.Filecopy"
  | .name n => n

theorem ServiceSpecifier.covers_sample (s : ServiceSpecifier) : s.covers s.sample = true := by
  cases s with
  | wildcard => rfl
  | name n => exact beq_self_eq_true n

def ArgumentSpecifier.sample : ArgumentSpecifier → String
  | .empty | .any => ""
  | .specific text => text

theorem ArgumentSpecifier.covers_sample (a : ArgumentSpecifier) : a.covers a.sample = true := by
  cases a with
  | empty => rfl
  | any => rfl
  | specific text => exact beq_self_eq_true text

/-! ## qubes -/

namespace QubeSpecifier

/-- The form is about qubes that exist. The other ones are about calls that name no destination, and
about disposables that are still to be made. -/
def Form.isQube : Form → Bool
  | .literal | .adminVM | .anyVM | .tag | .type => true
  | .default | .dispVM | .dispVMNamed | .dispVMByTag => false

def sampleQube : QubeSpecifier → Qube
  | .literal n => ⟨n, none, []⟩
  | .tag t => ⟨"work", none, [t]⟩
  | .type t => ⟨"work", some t, []⟩
  | .adminVM | .anyVM | .default | .dispVM | .dispVMNamed _ | .dispVMByTag _ => ⟨"dom0", none, []⟩

def sampleDestination : QubeSpecifier → Destination
  | .default => .unspecified
  | .dispVM => .disposable none
  | .dispVMNamed n => .disposable (some ⟨n, none, []⟩)
  | .dispVMByTag t => .disposable (some ⟨"work", none, [t]⟩)
  | q => .qube q.sampleQube

variable {q : QubeSpecifier}

theorem coversQube_sampleQube (h : q.form.isQube = true) : q.coversQube q.sampleQube = true := by
  cases q with
  | literal n => exact beq_self_eq_true n
  | adminVM => rfl
  | anyVM => rfl
  | tag t => simp [coversQube, sampleQube, Qube.hasTag]
  | type t => exact beq_self_eq_true (some t)
  | default | dispVM | dispVMNamed | dispVMByTag => cases h

theorem isQube_of_coversQube {qube : Qube} (h : q.coversQube qube = true) :
    q.form.isQube = true := by
  cases q with
  | literal | adminVM | anyVM | tag | type => rfl
  | default | dispVM | dispVMNamed | dispVMByTag => cases h

theorem coversDestination_sampleDestination (q : QubeSpecifier) :
    q.coversDestination q.sampleDestination = true := by
  cases q with
  | literal n => exact coversQube_sampleQube (q := .literal n) rfl
  | adminVM => rfl
  | anyVM => rfl
  | tag t => exact coversQube_sampleQube (q := .tag t) rfl
  | type t => exact coversQube_sampleQube (q := .type t) rfl
  | default => rfl
  | dispVM => rfl
  | dispVMNamed n => exact beq_self_eq_true n
  | dispVMByTag t =>
    simp [coversDestination, sampleDestination, coversDisposable, Qube.hasTag]

/-- Of the forms that may stand for the caller, those that are about no qube are the two for a
disposable from a template that is told. -/
theorem isQube_iff_of_legalIn (h : q.legalIn .source = true) :
    q.form.isQube = true ↔ q.form ∉ [.dispVMNamed, .dispVMByTag] := by
  have hlegal : q.form ∉ [.default, .dispVM] := Rule.legalIn_source_iff.mp h
  cases q with
  | literal | adminVM | anyVM | tag | type | dispVMNamed | dispVMByTag => simp [form, Form.isQube]
  | default | dispVM => simp [form] at hlegal

end QubeSpecifier

/-! ## rules -/

namespace Rule

def sample (r : Rule) : Request :=
  ⟨r.service.sample, r.argument.sample, r.source.sampleQube, r.destination.sampleDestination⟩

variable {r : Rule}

theorem covers_sample (h : r.source.form.isQube = true) : r.covers r.sample = true := by
  have hsource := QubeSpecifier.coversQube_sampleQube h
  simp only [covers, sample, r.service.covers_sample, r.argument.covers_sample, hsource,
    r.destination.coversDestination_sampleDestination, Bool.and_self]

/-- **A rule is about some call exactly if its source is about some qube.** -/
theorem exists_covers_iff : (∃ request, r.covers request = true) ↔ r.source.form.isQube = true := by
  constructor
  · rintro ⟨request, h⟩
    simp only [covers, Bool.and_eq_true] at h
    exact QubeSpecifier.isQube_of_coversQube h.1.2
  · intro h
    exact ⟨r.sample, covers_sample h⟩

end Rule

/-! ## files of one line -/

section

variable {ε : Type} {inc : Includes ε} {request : Request} {allowIncludes : Bool} {number : Nat}
  {raw : String} {r : Rule} {f : PolicyFile}

open Evaluation in
theorem explain_oneRule (hraws : f.raws = [raw])
    (hrule : Content.read f.allowIncludes raw = .rule r) :
    explain inc request [f] =
      .ok (if r.covers request then some ⟨r, 1, f.name⟩ else none) := by
  have hlines : f.lines = [Line.read f.allowIncludes 1 raw] := by
    rw [PolicyFile.lines, hraws]
    rfl
  have hline : scanLine inc request [f.name] f.name (Line.read f.allowIncludes 1 raw) =
      .ok (if r.covers request then some ⟨r, 1, f.name⟩ else none) := scanLine_of_rule hrule
  rw [explain, scanFile, hlines, scanLines_cons, hline]
  cases r.covers request with
  | false => simp [scanLines_nil, explain]
  | true => rfl

theorem Line.content_read_eq_rule (h : (read allowIncludes number raw).content = .rule r)
    (mayInclude : Bool) : Content.read mayInclude raw = .rule r :=
  Content.read_eq_rule_iff.mpr (Content.read_eq_rule_iff.mp h)

/-- **Of the rules that lines say, exactly those about disposable callers are dead.** All other ones
cover some call, whatever their specifiers, and a file of this one line decides it as the rule
says. -/
theorem Line.covers_some_iff (h : (read allowIncludes number raw).content = .rule r) :
    ((∃ request, r.covers request = true) ↔ r.source.form ∉ [.dispVMNamed, .dispVMByTag]) ∧
    ∀ {ε : Type} (inc : Includes ε) (f : PolicyFile), f.raws = [raw] →
      ((∃ request m, explain inc request [f] = .ok (some m) ∧ m.action = r.action) ↔
        r.source.form ∉ [.dispVMNamed, .dispVMByTag]) := by
  have hspelled : r.Spelled (Token.words raw) := Content.read_eq_rule_iff.mp h
  have hlegal : r.source.legalIn .source = true := Rule.legalIn_source_iff.mpr hspelled.source.2
  have hcovers : (∃ request, r.covers request = true) ↔
      r.source.form ∉ [.dispVMNamed, .dispVMByTag] :=
    Rule.exists_covers_iff.trans (QubeSpecifier.isQube_iff_of_legalIn hlegal)
  refine ⟨hcovers, fun inc f hraws => ?_⟩
  have hrule := content_read_eq_rule h f.allowIncludes
  rw [← hcovers]
  constructor
  · rintro ⟨request, m, hm, -⟩
    refine ⟨request, by_contra fun hnot => ?_⟩
    rw [explain_oneRule hraws hrule, if_neg hnot] at hm
    cases hm
  · rintro ⟨request, hcovered⟩
    exact ⟨request, ⟨r, 1, f.name⟩, by rw [explain_oneRule hraws hrule, if_pos hcovered], rfl⟩

end

/-- Asks before a disposable is made for a qube with a tag. -/
def Rule.calling : Rule :=
  ⟨.name "qubes.Gpg", .specific "sign", .tag "work", .dispVMByTag "build", .grant .ask none []⟩

def Rule.called : Rule :=
  { calling with source := calling.destination, destination := calling.source }

/-- A disposable by its tag can be called, and cannot call. -/
theorem Line.covers_some_calling :
    (read true 3 "qubes.Gpg\t+sign @tag:work @dispvm:@tag:build ask").content = .rule .calling ∧
    (∃ request m, explain (.ofFiles [] : Includes Empty) request [PolicyFile.ofText "30-user" true
      "qubes.Gpg\t+sign @tag:work @dispvm:@tag:build ask\n"] = .ok (some m) ∧
        m.action = .grant .ask none []) ∧
    (read true 3 "qubes.Gpg +sign @dispvm:@tag:build @tag:work ask").content = .rule .called ∧
    ¬∃ request, Rule.called.covers request = true := by
  have hcalling : (read true 3 "qubes.Gpg\t+sign @tag:work @dispvm:@tag:build ask").content =
      .rule .calling := by
    decide +kernel
  have hcalled : (read true 3 "qubes.Gpg +sign @dispvm:@tag:build @tag:work ask").content =
      .rule .called := by
    decide +kernel
  refine ⟨hcalling, ?_, hcalled, ?_⟩
  · exact ((covers_some_iff hcalling).2 _ _ (by decide +kernel)).mpr (by decide)
  · exact mt (covers_some_iff hcalled).1.mp (by decide)

end QubePolicy
