import QubePolicy.Proofs.Evaluation.Nesting
import QubePolicy.Report

/-!
# Requests that no rule tells apart

Rules ask for the name and the type of a qube and whether it has a tag.  So the order of its tags
does not matter, nor does a tag that is given twice.

* `Qube.Alike`, `Destination.Alike`, `Request.Alike`   the same for all that rules ask for;
* `Request.Alike.covers`   a rule covers both of two such requests, or neither;
* `explain_of_covers`      only the rules that cover a request matter;
* `Request.Alike.explain_eq`, `Request.Alike.decision_eq`   such requests come to the same decision,
                           which is told in the same words.
-/

namespace QubePolicy

/-! ## alike requests -/

/-- Of one name and one type, and with the same tags, in whatever order and however often each of
them is given. -/
structure Qube.Alike (q q' : Qube) : Prop where
  name : q'.name = q.name
  type : q'.type = q.type
  tags : ∀ tag, tag ∈ q'.tags ↔ tag ∈ q.tags

inductive Destination.Alike : Destination → Destination → Prop
  | unspecified : Alike .unspecified .unspecified
  | disposable : Alike (.disposable none) (.disposable none)
  | template {q q' : Qube} : q.Alike q' → Alike (.disposable (some q)) (.disposable (some q'))
  | qube {q q' : Qube} : q.Alike q' → Alike (.qube q) (.qube q')

structure Request.Alike (r r' : Request) : Prop where
  service : r'.service = r.service
  argument : r'.argument = r.argument
  source : r.source.Alike r'.source
  destination : r.destination.Alike r'.destination

/-! ## rules -/

theorem Qube.Alike.hasTag {q q' : Qube} (h : q.Alike q') (tag : String) :
    q'.hasTag tag = q.hasTag tag := by
  rw [Bool.eq_iff_iff, Qube.hasTag, Qube.hasTag, List.contains_iff_mem, List.contains_iff_mem]
  exact h.tags tag

theorem Qube.Alike.coversQube {q q' : Qube} (h : q.Alike q') (s : QubeSpecifier) :
    s.coversQube q' = s.coversQube q := by
  cases s with
  | literal | adminVM | type =>
    simp only [QubeSpecifier.coversQube, Qube.isAdmin, h.name, h.type]
  | tag t => exact h.hasTag t
  | _ => rfl

theorem Destination.Alike.coversDestination {d d' : Destination} (h : d.Alike d')
    (s : QubeSpecifier) : s.coversDestination d' = s.coversDestination d := by
  cases h with
  | unspecified | disposable => rfl
  | template h =>
    cases s with
    | dispVMNamed name =>
      simp only [QubeSpecifier.coversDestination, QubeSpecifier.coversDisposable, Option.any_some,
        h.name]
    | dispVMByTag t => exact h.hasTag t
    | _ => rfl
  | qube h => exact h.coversQube s

/-- **No rule tells alike requests apart.** -/
theorem Request.Alike.covers {request request' : Request} (h : request.Alike request') (r : Rule) :
    r.covers request' = r.covers request := by
  rw [Rule.covers, Rule.covers, h.service, h.argument, h.source.coversQube,
    h.destination.coversDestination]

/-! ## decisions -/

namespace Evaluation

variable {ε : Type} {resolve : Directive → String → Except ε (List PolicyFile)}
  {request request' : Request} {chain : List String} {task : Task}
  {found : Except ε (Option Match)} {depth : Nat}

theorem Finishes.of_covers (hcovers : ∀ r : Rule, r.covers request' = r.covers request)
    (h : Finishes resolve request chain task found depth) :
    Finishes resolve request' chain task found depth := by
  induction h with
  | noLines => exact .noLines
  | noFiles => exact .noFiles
  | inert hincludes hrule _ ih =>
    exact .inert hincludes (fun r hr => (hcovers r).trans (hrule r hr)) ih
  | rule hrule hcovered => exact .rule hrule ((hcovers _).trans hcovered)
  | unresolved hcontent herror => exact .unresolved hcontent herror
  | included hcontent hfs _ hne ih => exact .included hcontent hfs ih hne
  | includedNone hcontent hfs _ _ ihfiles ih => exact .includedNone hcontent hfs ihfiles ih
  | passedOver hchain _ ih => exact .passedOver hchain ih
  | entered hchain _ hne ih => exact .entered hchain ih hne
  | enteredNone hchain _ _ ihlines ih => exact .enteredNone hchain ihlines ih

end Evaluation

/-- **Only the rules that cover a request matter.** -/
theorem explain_of_covers {ε : Type} (inc : Includes ε) {request request' : Request}
    (hcovers : ∀ r : Rule, r.covers request' = r.covers request) (files : List PolicyFile) :
    explain inc request' files = explain inc request files := by
  obtain ⟨depth, hfinishes⟩ := exists_finishes_explain inc request files
  rw [Evaluation.explain_eq_scanFiles inc request' files]
  exact (hfinishes.of_covers hcovers).found_eq.symm

theorem Destination.Alike.render_eq {d d' : Destination} (h : d.Alike d') :
    d'.render = d.render := by
  cases h with
  | unspecified | disposable => rfl
  | template hq => simp only [Destination.render, hq.name]
  | qube hq => exact hq.name

namespace Request.Alike

variable {request request' : Request} (h : request.Alike request')

include h

/-- **Alike requests come to the same decision.** -/
theorem explain_eq {ε : Type} (inc : Includes ε) (files : List PolicyFile) :
    explain inc request' files = explain inc request files :=
  explain_of_covers inc h.covers files

theorem render_eq : request'.render = request.render := by
  rw [Request.render, Request.render, h.service, h.argument, h.source.name,
    h.destination.render_eq]

/-- **The decision is told in the same words.** -/
theorem decision_eq (found : Option Match) : request'.decision found = request.decision found := by
  simp only [Request.decision, h.render_eq]

end Request.Alike

end QubePolicy
