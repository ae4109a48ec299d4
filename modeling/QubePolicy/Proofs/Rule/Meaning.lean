import QubePolicy.Proofs.Rule.RoundTrip
import QubePolicy.Proofs.Text.Order

/-!
# The meaning of a rule

Rules of one meaning differ in nothing but the order of their parameters.

* `Action.value?`            the value given for a key;
* `Rule.SameMeaning`         the same fields, and the same values of all parameters;
* `Rule.render_inj`          rules that can be written are told apart by their spelling;
* `Rule.key_eq_iff`          and by their keys as far as their meanings differ.
-/

namespace QubePolicy

/-! ## actions -/

namespace Action

def target? : Action → Option QubeSpecifier
  | .deny => none
  | .grant _ target _ => target

def parameters : Action → List Parameter
  | .deny => []
  | .grant _ _ parameters => parameters

def value? (a : Action) (key : String) : Option String :=
  (a.parameters.find? (·.key == key)).map Parameter.value

/-- The same decision with the same target, and the same value for each key. -/
structure SameMeaning (a b : Action) : Prop where
  decision : a.decision = b.decision
  target : a.target? = b.target?
  value : ∀ key, a.value? key = b.value? key

variable {a b : Action}

theorem WellFormed.nodup (h : a.WellFormed) : (a.parameters.map Parameter.key).Nodup := by
  cases a with
  | deny => exact List.nodup_nil
  | grant mode target parameters => exact h.2.2

theorem WellFormed.eq_of_key (h : a.WellFormed) {p q : Parameter} (hp : p ∈ a.parameters)
    (hq : q ∈ a.parameters) (hkey : p.key = q.key) : p = q :=
  List.inj_on_of_nodup_map h.nodup hp hq hkey

theorem value?_eq_some_iff (h : a.WellFormed) {key value : String} :
    a.value? key = some value ↔ ⟨key, value⟩ ∈ a.parameters := by
  unfold value?
  rw [Option.map_eq_some_iff]
  constructor
  · rintro ⟨p, hp, rfl⟩
    have hkey : p.key = key := by simpa using List.find?_some hp
    rw [← hkey]
    exact List.mem_of_find?_eq_some hp
  · intro hmem
    cases hfind : a.parameters.find? (·.key == key) with
    | none => simpa using List.find?_eq_none.mp hfind _ hmem
    | some p =>
      have hkey : p.key = key := by simpa using List.find?_some hfind
      exact ⟨p, rfl, by rw [h.eq_of_key (List.mem_of_find?_eq_some hfind) hmem hkey]⟩

/-- Each key has the same value in both just when the parameters are the same up to order. -/
theorem value?_eq_iff_perm (ha : a.WellFormed) (hb : b.WellFormed) :
    (∀ key, a.value? key = b.value? key) ↔ a.parameters.Perm b.parameters := by
  rw [List.perm_ext_iff_of_nodup ha.nodup.of_map hb.nodup.of_map]
  constructor
  · intro hvalue p
    rw [← value?_eq_some_iff ha, hvalue, value?_eq_some_iff hb]
  · intro hmem key
    ext value
    rw [value?_eq_some_iff ha, hmem, value?_eq_some_iff hb]

/-! ## sorted parameters -/

theorem WellFormed.sorted (h : a.WellFormed) : a.sorted.WellFormed := by
  cases a with
  | deny => trivial
  | grant mode target parameters =>
    obtain ⟨htarget, hparameters, hnodup⟩ := h
    have hperm := List.mergeSort_perm parameters fun p q => !Text.before q.key p.key
    exact ⟨htarget, fun p hp => hparameters p (hperm.mem_iff.mp hp),
      (hperm.map Parameter.key).nodup_iff.mpr hnodup⟩

theorem sorted_eq_iff_perm (ha : a.WellFormed) : a.sorted = b.sorted ↔
    a.decision = b.decision ∧ a.target? = b.target? ∧ a.parameters.Perm b.parameters := by
  cases a with
  | deny =>
    cases b with
    | deny => simp [parameters]
    | grant mode target parameters => simp [sorted, decision]
  | grant mode target ps =>
    cases b with
    | deny => simp [sorted, decision]
    | grant mode' target' qs =>
      have hsort : (ps.mergeSort fun p q => !Text.before q.key p.key) =
          (qs.mergeSort fun p q => !Text.before q.key p.key) ↔ ps.Perm qs := by
        constructor
        · intro hsorted
          have hps := List.mergeSort_perm ps fun p q => !Text.before q.key p.key
          rw [hsorted] at hps
          exact hps.symm.trans (List.mergeSort_perm qs _)
        · intro hperm
          exact Text.mergeSort_eq_of_perm Parameter.key hperm fun p hp q hq => ha.eq_of_key hp hq
      rw [sorted, sorted, grant.injEq, hsort]
      simp [decision, target?, parameters]

theorem sorted_eq_iff (ha : a.WellFormed) (hb : b.WellFormed) :
    a.sorted = b.sorted ↔ a.SameMeaning b := by
  rw [sorted_eq_iff_perm ha, ← value?_eq_iff_perm ha hb]
  exact ⟨fun ⟨hdecision, htarget, hvalue⟩ => ⟨hdecision, htarget, hvalue⟩,
    fun ⟨hdecision, htarget, hvalue⟩ => ⟨hdecision, htarget, hvalue⟩⟩

end Action

/-! ## rules -/

namespace Rule

/-- The same fields, and actions of the same meaning. -/
structure SameMeaning (r s : Rule) : Prop where
  service : r.service = s.service
  argument : r.argument = s.argument
  source : r.source = s.source
  destination : r.destination = s.destination
  action : r.action.SameMeaning s.action

variable {r s : Rule}

theorem read_render (h : r.WellFormed) (allowIncludes : Bool) :
    Content.read allowIncludes r.render = .rule r := by
  rw [Content.read_eq_rule_iff, words_render h]
  exact spelled_words h

/-- **Rules that can be written are told apart by their spelling.** -/
theorem render_inj (hr : r.WellFormed) (hs : s.WellFormed) : r.render = s.render ↔ r = s := by
  constructor
  · intro h
    have hread := read_render hr true
    rw [h, read_render hs true] at hread
    injection hread with hread
    exact hread.symm
  · rintro rfl
    rfl

theorem WellFormed.sorted (h : r.WellFormed) :
    WellFormed { r with action := r.action.sorted } where
  service := h.service
  argument := h.argument
  source := h.source
  destination := h.destination
  action := h.action.sorted

/-- **Rules have one key just when they have one meaning.** -/
theorem key_eq_iff (hr : r.WellFormed) (hs : s.WellFormed) : r.key = s.key ↔ r.SameMeaning s := by
  unfold key
  rw [render_inj hr.sorted hs.sorted, mk.injEq, Action.sorted_eq_iff hr.action hs.action]
  exact ⟨fun ⟨hservice, hargument, hsource, hdestination, haction⟩ =>
      ⟨hservice, hargument, hsource, hdestination, haction⟩,
    fun ⟨hservice, hargument, hsource, hdestination, haction⟩ =>
      ⟨hservice, hargument, hsource, hdestination, haction⟩⟩

/-- Some line says the rule. -/
def Parsed (r : Rule) : Prop :=
  ∃ allowIncludes number raw, (Line.read allowIncludes number raw).content = .rule r

theorem Parsed.wellFormed (h : r.Parsed) : r.WellFormed := by
  obtain ⟨allowIncludes, number, raw, h⟩ := h
  exact wellFormed_of_spelled (Content.read_eq_rule_iff.mp h) fun _ hw =>
    (Token.isText_of_mem_words hw).noSeparator

end Rule

end QubePolicy
