import QubePolicy.Proofs.Action.Clauses
import Mathlib.Data.List.Nodup

/-!
# Spelling actions

An action is a word and assignments behind it, one of which may name its target.

* `Grant.Accepts`          the assignments that may stand behind an action word together;
* `Action.Spelled`         some words are those of an action, its target anywhere among the rest;
* `Action.WellFormed`      an action that can be written;
* `Action.read_eq_valid_iff`   reading gives the action whose words are read;
* `Action.spelled_words`   the words of an action that can be written spell it.
-/

namespace QubePolicy

open Token (NoSeparator)

/-! ## spelling -/

/-- The assignments that may stand together behind the word of a grant. -/
structure Grant.Accepts (mode : Grant) (ps : List Parameter) : Prop where
  hasKey : ∀ p ∈ ps, p.HasKey
  nodup : (ps.map Parameter.key).Nodup
  noOther : mode.other.targetKey ∉ ps.map Parameter.key
  target : ∀ p ∈ ps, p.key = mode.targetKey → ∃ q : QubeSpecifier,
    q.WellFormed ∧ q.form ∉ [.dispVMByTag, .tag, .type] ∧ p.value = q.render

/-- The words are those of the action; its target may stand anywhere among its parameters. -/
def Action.Spelled (words : List String) : Action → Prop
  | .deny => words = ["deny"]
  | .grant mode target parameters => ∃ ps, mode.Accepts ps ∧
      words = mode.word :: ps.map Parameter.render ∧
      (∀ q, target = some q ↔ q.WellFormed ∧ ⟨mode.targetKey, q.render⟩ ∈ ps) ∧
      parameters = ps.filter (·.key != mode.targetKey)

namespace Action

variable {mode : Grant}

theorem legalIn_parameter_iff {q : QubeSpecifier} :
    q.legalIn .parameter = true ↔ q.form ∉ [.dispVMByTag, .tag, .type] := by
  cases q <;> simp [QubeSpecifier.legalIn, QubeSpecifier.form, QubeSpecifier.Form.illegalPositions]

theorem accepts_of_wellFormed {cs : List Clause} (hwell : ∀ c ∈ cs, c.WellFormed mode)
    (hnodup : (cs.map fun c => (c.assignment mode).key).Nodup) :
    mode.Accepts (cs.map (Clause.assignment mode)) where
  hasKey p hp := by
    obtain ⟨c, hc, rfl⟩ := List.mem_map.mp hp
    exact (hwell c hc).hasKey
  nodup := by rwa [List.map_map]
  noOther h := by
    obtain ⟨p, hp, hkey⟩ := List.mem_map.mp h
    obtain ⟨c, hc, rfl⟩ := List.mem_map.mp hp
    exact (hwell c hc).key_ne_other hkey
  target p hp hkey := by
    obtain ⟨c, hc, rfl⟩ := List.mem_map.mp hp
    obtain ⟨q, rfl⟩ := Clause.eq_target (hwell c hc) hkey
    exact ⟨q, (hwell _ hc).1, legalIn_parameter_iff.mp (hwell _ hc).2, rfl⟩

theorem exists_clause {ps : List Parameter} (h : mode.Accepts ps) {p : Parameter} (hp : p ∈ ps) :
    ∃ c : Clause, c.WellFormed mode ∧ c.assignment mode = p := by
  by_cases hkey : p.key = mode.targetKey
  · obtain ⟨q, hwell, hform, hvalue⟩ := h.target p hp hkey
    refine ⟨.target q, ⟨hwell, legalIn_parameter_iff.mpr hform⟩, ?_⟩
    rw [Clause.assignment, ← hkey, ← hvalue]
  · refine ⟨.parameter p, ⟨h.hasKey p hp, hkey, fun hother => ?_⟩, rfl⟩
    exact h.noOther (hother ▸ List.mem_map_of_mem hp)

theorem exists_clauses {ps : List Parameter}
    (h : ∀ p ∈ ps, ∃ c : Clause, c.WellFormed mode ∧ c.assignment mode = p) :
    ∃ cs : List Clause, (∀ c ∈ cs, c.WellFormed mode) ∧ cs.map (Clause.assignment mode) = ps := by
  induction ps with
  | nil => exact ⟨[], by simp, rfl⟩
  | cons p ps ih =>
    obtain ⟨c, hc, rfl⟩ := h p List.mem_cons_self
    obtain ⟨cs, hcs, rfl⟩ := ih fun q hq => h q (List.mem_cons_of_mem _ hq)
    exact ⟨c :: cs, List.forall_mem_cons.mpr ⟨hc, hcs⟩, rfl⟩

/-! ## what clauses amount to -/

theorem filterMap_parameter? {cs : List Clause} (hwell : ∀ c ∈ cs, c.WellFormed mode) :
    cs.filterMap Clause.parameter? =
      (cs.map (Clause.assignment mode)).filter (·.key != mode.targetKey) := by
  induction cs with
  | nil => rfl
  | cons c cs ih =>
    have hc := hwell c List.mem_cons_self
    have ih' := ih fun d hd => hwell d (List.mem_cons_of_mem c hd)
    cases c with
    | target q =>
      rw [List.filterMap_cons_none rfl, List.map_cons, List.filter_cons_of_neg (by
        simp [Clause.assignment]), ih']
    | parameter p =>
      have hsome : Clause.parameter? (.parameter p) = some p := rfl
      rw [List.filterMap_cons_some hsome, List.map_cons, List.filter_cons_of_pos (by
        simpa [Clause.assignment] using hc.2.1), ih']
      rfl

theorem findSome?_target? {cs : List Clause} (hwell : ∀ c ∈ cs, c.WellFormed mode)
    (hnodup : (cs.map fun c => (c.assignment mode).key).Nodup) (q : QubeSpecifier) :
    cs.findSome? Clause.target? = some q ↔
      q.WellFormed ∧ ⟨mode.targetKey, q.render⟩ ∈ cs.map (Clause.assignment mode) := by
  constructor
  · intro h
    obtain ⟨c, hc, htarget⟩ := List.exists_of_findSome?_eq_some h
    cases c with
    | target q' =>
      cases htarget
      exact ⟨(hwell _ hc).1, List.mem_map.mpr ⟨_, hc, rfl⟩⟩
    | parameter p => cases htarget
  · rintro ⟨hq, hmem⟩
    obtain ⟨c, hc, hassign⟩ := List.mem_map.mp hmem
    have hckey : (c.assignment mode).key = mode.targetKey := by rw [hassign]
    obtain ⟨p, rfl⟩ := Clause.eq_target (hwell c hc) hckey
    have hpq : p = q :=
      (hwell _ hc).1.eq_of_render hq (congrArg Parameter.value hassign)
    cases hfound : cs.findSome? Clause.target? with
    | none => cases List.findSome?_eq_none_iff.mp hfound _ hc
    | some r =>
      obtain ⟨d, hd, hr⟩ := List.exists_of_findSome?_eq_some hfound
      cases d with
      | target r' =>
        cases hr
        have hsame : Clause.target r = .target p :=
          List.inj_on_of_nodup_map hnodup hd hc rfl
        injection hsame with hsame
        rw [hsame, hpq]
      | parameter p' => cases hr

theorem ofClauses_eq_iff {cs : List Clause} (hwell : ∀ c ∈ cs, c.WellFormed mode)
    (hnodup : (cs.map fun c => (c.assignment mode).key).Nodup) {target : Option QubeSpecifier}
    {parameters : List Parameter} :
    ofClauses mode cs = .grant mode target parameters ↔
      (∀ q, target = some q ↔
        q.WellFormed ∧ ⟨mode.targetKey, q.render⟩ ∈ cs.map (Clause.assignment mode)) ∧
      parameters = (cs.map (Clause.assignment mode)).filter (·.key != mode.targetKey) := by
  rw [ofClauses, Action.grant.injEq, filterMap_parameter? hwell]
  have hfound := findSome?_target? hwell hnodup
  constructor
  · rintro ⟨-, rfl, rfl⟩
    exact ⟨hfound, rfl⟩
  · rintro ⟨htarget, hparameters⟩
    refine ⟨rfl, ?_, hparameters.symm⟩
    ext q
    rw [hfound, htarget]

theorem readClauses_grant_iff {ts : List Token} {a : Action} :
    ofClauses mode <$> readClauses mode [] ts = .valid a ↔
      a.Spelled (mode.word :: ts.map Token.value) ∧ a.decision = .grant mode := by
  rw [Checked.map_eq_valid_iff]
  constructor
  · rintro ⟨cs, hcs, rfl⟩
    obtain ⟨hall, hnodup, hvalues⟩ := readClauses_eq_valid_iff.mp hcs
    have hwell : ∀ c ∈ cs, c.WellFormed mode := fun c hc => (hall c hc).1
    obtain ⟨htarget, hparameters⟩ := (ofClauses_eq_iff hwell hnodup).mp rfl
    refine ⟨⟨cs.map (Clause.assignment mode), accepts_of_wellFormed hwell hnodup, ?_, htarget,
      hparameters⟩, rfl⟩
    rw [hvalues, List.map_map]
    rfl
  · rintro ⟨hspelled, hdecision⟩
    cases a with
    | deny => cases hdecision
    | grant mode' target parameters =>
      cases hdecision
      obtain ⟨ps, haccepts, hvalues, htarget, hparameters⟩ := hspelled
      obtain ⟨cs, hwell, rfl⟩ := exists_clauses fun p hp => exists_clause haccepts hp
      have hnodup : (cs.map fun c => (c.assignment mode).key).Nodup := by
        have := haccepts.nodup
        rwa [List.map_map] at this
      refine ⟨cs, readClauses_eq_valid_iff.mpr ⟨fun c hc => ⟨hwell c hc, List.not_mem_nil⟩,
        hnodup, ?_⟩, (ofClauses_eq_iff hwell hnodup).mpr ⟨htarget, hparameters⟩⟩
      rw [(List.cons.inj hvalues).2, List.map_map]
      rfl

theorem Spelled.head_eq {a : Action} {w : String} {ws : List String} (h : a.Spelled (w :: ws)) :
    w = a.decision.word := by
  cases a with
  | deny => exact (List.cons.inj h).1
  | grant mode target parameters =>
    obtain ⟨ps, -, hwords, -⟩ := h
    exact (List.cons.inj hwords).1

theorem Spelled.exists_cons {a : Action} {words : List String} (h : a.Spelled words) :
    ∃ w ws, words = w :: ws := by
  cases a with
  | deny => exact ⟨_, _, h⟩
  | grant mode target parameters =>
    obtain ⟨ps, -, hwords, -⟩ := h
    exact ⟨_, _, hwords⟩

theorem ofDecision_eq_valid_iff {ts : List Token} {d : Decision} {a : Action} :
    ofDecision ts d = .valid a ↔ a.Spelled (d.word :: ts.map Token.value) ∧ a.decision = d := by
  cases d with
  | grant mode => exact readClauses_grant_iff
  | deny =>
    constructor
    · intro h
      cases ts with
      | nil =>
        cases Checked.pure_eq_valid_iff.mp h
        exact ⟨rfl, rfl⟩
      | cons t ts => cases h
    · rintro ⟨hspelled, hdecision⟩
      cases a with
      | deny =>
        have hts : ts = [] := List.map_eq_nil_iff.mp (List.cons.inj hspelled).2
        rw [hts]
        rfl
      | grant mode target parameters => cases hdecision

/-- **Reading gives the action whose words are read.** -/
theorem read_eq_valid_iff {word : Token} {ts : List Token} {a : Action} :
    read word ts = .valid a ↔ a.Spelled (word.value :: ts.map Token.value) := by
  constructor
  · intro h
    unfold read at h
    split at h
    · next d hd =>
      rw [Decision.ofWord?_eq_some_iff.mp hd]
      exact (ofDecision_eq_valid_iff.mp h).1
    · cases h
  · intro h
    have hword : Decision.ofWord? word.value = some a.decision :=
      Decision.ofWord?_eq_some_iff.mpr h.head_eq
    rw [read, hword]
    rw [h.head_eq] at h
    exact ofDecision_eq_valid_iff.mpr ⟨h, rfl⟩

theorem reasoned_readClause {seen : List String} (t : Token) :
    (readClause mode seen t).Reasoned := by
  unfold readClause
  split
  · exact Checked.reasoned_ofExcept _ _
  · split
    · exact Checked.reasoned_ofExcept _ _
    · split
      · exact Checked.reasoned_ofExcept _ _
      · split
        · exact (Checked.reasoned_ofExcept _ _).map _
        · exact Checked.reasoned_valid _

theorem reasoned_readClauses {seen : List String} (ts : List Token) :
    (readClauses mode seen ts).Reasoned := by
  induction ts generalizing seen with
  | nil => exact Checked.reasoned_valid _
  | cons t ts ih => exact ((reasoned_readClause t).map _).apply ih

theorem reasoned_read (word : Token) (ts : List Token) : (read word ts).Reasoned := by
  unfold read
  split
  · next d _ =>
    cases d with
    | deny =>
      cases ts with
      | nil => exact Checked.reasoned_valid _
      | cons t ts =>
        exact Checked.reasoned_ofExcept (.all t ts) (.error .parametersForDeny)
    | grant mode => exact (reasoned_readClauses ts).map _
  · exact Checked.reasoned_ofExcept _ _

end Action

/-! ## actions that can be written -/

/-- Neither the name of a target nor a word boundary is lost in a parameter. -/
structure Parameter.WellFormed (p : Parameter) : Prop where
  hasKey : p.HasKey
  noTarget : p.key ≠ Grant.allow.targetKey ∧ p.key ≠ Grant.ask.targetKey
  noSeparator : NoSeparator p.key ∧ NoSeparator p.value

theorem Parameter.WellFormed.key_ne {p : Parameter} (h : p.WellFormed) (mode : Grant) :
    p.key ≠ mode.targetKey := by
  cases mode with
  | allow => exact h.noTarget.1
  | ask => exact h.noTarget.2

theorem Parameter.noSeparator_render {p : Parameter} :
    NoSeparator p.render ↔ NoSeparator p.key ∧ NoSeparator p.value := by
  have heq : NoSeparator "=" := by decide
  rw [render, Token.noSeparator_append, Token.noSeparator_append]
  exact ⟨fun h => ⟨h.1.1, h.2⟩, fun h => ⟨⟨h.1, heq⟩, h.2⟩⟩

theorem Parameter.HasKey.render_ne_empty {p : Parameter} (h : p.HasKey) : p.render ≠ "" := by
  intro hrender
  rw [render, String.append_eq_empty_iff, String.append_eq_empty_iff] at hrender
  exact h.ne_empty hrender.1.1

def Action.WellFormed : Action → Prop
  | .deny => True
  | .grant _ target parameters =>
    (∀ q, target = some q → q.WellFormed ∧ q.legalIn .parameter = true) ∧
    (∀ p ∈ parameters, p.WellFormed) ∧ (parameters.map Parameter.key).Nodup

namespace Action

theorem wellFormed_of_spelled {words : List String} {a : Action} (h : a.Spelled words)
    (hwords : ∀ w ∈ words, NoSeparator w) : a.WellFormed := by
  cases a with
  | deny => trivial
  | grant mode target parameters =>
    obtain ⟨ps, haccepts, rfl, htarget, rfl⟩ := h
    refine ⟨fun q hq => ?_, fun p hp => ?_, ?_⟩
    · obtain ⟨hwell, hmem⟩ := (htarget q).mp hq
      obtain ⟨q', hwell', hform, hvalue⟩ := haccepts.target _ hmem rfl
      rw [hwell.eq_of_render hwell' hvalue]
      exact ⟨hwell', legalIn_parameter_iff.mpr hform⟩
    · obtain ⟨hmem, hkey⟩ := List.mem_filter.mp hp
      have hkey' : p.key ≠ mode.targetKey := by simpa using hkey
      have hother : p.key ≠ mode.other.targetKey := fun hother =>
        haccepts.noOther (hother ▸ List.mem_map_of_mem hmem)
      refine ⟨haccepts.hasKey p hmem, ?_, Parameter.noSeparator_render.mp ?_⟩
      · cases mode with
        | allow => exact ⟨hkey', hother⟩
        | ask => exact ⟨hother, hkey'⟩
      · exact hwords _ (List.mem_cons_of_mem _ (List.mem_map_of_mem hmem))
    · exact haccepts.nodup.sublist (List.filter_sublist.map Parameter.key)

def assignments (mode : Grant) (target : Option QubeSpecifier) (parameters : List Parameter) :
    List Parameter :=
  (target.toList.map fun q => ⟨mode.targetKey, q.render⟩) ++ parameters

variable {target : Option QubeSpecifier} {parameters : List Parameter}

theorem words_grant : (grant mode target parameters).words =
    mode.word :: (assignments mode target parameters).map Parameter.render := by
  rw [assignments, List.map_append, List.map_map]
  rfl

theorem mem_assignments_iff (h : (grant mode target parameters).WellFormed) {p : Parameter}
    (hkey : p.key = mode.targetKey) : p ∈ assignments mode target parameters ↔
      ∃ q, target = some q ∧ p = ⟨mode.targetKey, q.render⟩ := by
  rw [assignments, List.mem_append, List.mem_map]
  constructor
  · rintro (⟨q, hq, rfl⟩ | hp)
    · exact ⟨q, Option.mem_toList.mp hq, rfl⟩
    · exact absurd hkey ((h.2.1 p hp).key_ne mode)
  · rintro ⟨q, hq, rfl⟩
    exact .inl ⟨q, Option.mem_toList.mpr hq, rfl⟩

theorem hasKey_of_mem_assignments (h : (grant mode target parameters).WellFormed) {p : Parameter}
    (hp : p ∈ assignments mode target parameters) : p.HasKey := by
  rcases List.mem_append.mp hp with hp | hp
  · obtain ⟨q, -, rfl⟩ := List.mem_map.mp hp
    exact Parameter.hasKey_targetKey mode q.render
  · exact (h.2.1 p hp).hasKey

theorem filter_assignments (h : (grant mode target parameters).WellFormed) :
    (assignments mode target parameters).filter (·.key != mode.targetKey) = parameters := by
  have htarget : (target.toList.map fun q => Parameter.mk mode.targetKey q.render).filter
      (·.key != mode.targetKey) = [] := by
    rw [List.filter_eq_nil_iff]
    intro p hp
    obtain ⟨q, -, rfl⟩ := List.mem_map.mp hp
    simp
  have hparameters : parameters.filter (·.key != mode.targetKey) = parameters := by
    rw [List.filter_eq_self]
    intro p hp
    simpa using (h.2.1 p hp).key_ne mode
  rw [assignments, List.filter_append, htarget, hparameters, List.nil_append]

theorem accepts_assignments (h : (grant mode target parameters).WellFormed) :
    mode.Accepts (assignments mode target parameters) where
  hasKey p hp := hasKey_of_mem_assignments h hp
  nodup := by
    obtain ⟨-, hparameters, hnodup⟩ := h
    cases target with
    | none => exact hnodup
    | some q =>
      refine List.nodup_cons.mpr ⟨fun hmem => ?_, hnodup⟩
      obtain ⟨p, hp, hkey⟩ := List.mem_map.mp hmem
      exact (hparameters p hp).key_ne mode hkey
  noOther hmem := by
    obtain ⟨p, hp, hkey⟩ := List.mem_map.mp hmem
    rcases List.mem_append.mp hp with hp | hp
    · obtain ⟨q, -, rfl⟩ := List.mem_map.mp hp
      exact mode.targetKey_ne_other hkey
    · exact (h.2.1 p hp).key_ne mode.other hkey
  target p hp hkey := by
    obtain ⟨q, hq, rfl⟩ := (mem_assignments_iff h hkey).mp hp
    exact ⟨q, (h.1 q hq).1, legalIn_parameter_iff.mp (h.1 q hq).2, rfl⟩

/-- **The words of an action that can be written spell it.** -/
theorem spelled_words {a : Action} (h : a.WellFormed) : a.Spelled a.words := by
  cases a with
  | deny => rfl
  | grant mode target parameters =>
    refine ⟨_, accepts_assignments h, words_grant, fun q => ?_, (filter_assignments h).symm⟩
    rw [mem_assignments_iff h rfl]
    constructor
    · intro hq
      exact ⟨(h.1 q hq).1, q, hq, rfl⟩
    · rintro ⟨hwell, q', hq', heq⟩
      rw [hwell.eq_of_render (h.1 q' hq').1 (congrArg Parameter.value heq), hq']

theorem isText_of_mem_words {a : Action} (h : a.WellFormed) {w : String} (hw : w ∈ a.words) :
    Token.IsText w := by
  cases a with
  | deny =>
    rw [List.mem_singleton.mp hw]
    decide
  | grant mode target parameters =>
    rw [words_grant] at hw
    rcases List.mem_cons.mp hw with rfl | hw
    · cases mode with
      | allow => decide
      | ask => decide
    · obtain ⟨p, hp, rfl⟩ := List.mem_map.mp hw
      refine ⟨(hasKey_of_mem_assignments h hp).render_ne_empty, ?_⟩
      rcases List.mem_append.mp hp with hp | hp
      · obtain ⟨q, hq, rfl⟩ := List.mem_map.mp hp
        have hwell := (h.1 q (Option.mem_toList.mp hq)).1
        exact Parameter.noSeparator_render.mpr
          ⟨mode.targetKey_free.2.2, hwell.isText_render.noSeparator⟩
      · exact Parameter.noSeparator_render.mpr (h.2.1 p hp).noSeparator

end Action

end QubePolicy
