import QubePolicy.Proofs.Token.Words
import QubePolicy.Specifier.Reader

/-!
# Spelling specifiers

Each specifier that can be written has one spelling, and reading a text gives the specifier whose
spelling the text is.

* `ServiceSpecifier.WellFormed`, `ArgumentSpecifier.WellFormed`, `QubeSpecifier.WellFormed`
                                 the names and texts in it are of their classes;
* `Text.IsDotted`                two or more words joined by dots, as service names are;
* `read_eq_ok_iff`               reading and spelling are inverse, for each of the three;
* `QubeSpecifier.readAt_eq_ok_iff`  the same where the position counts.
-/

namespace QubePolicy

open Token (NoSeparator IsText)

/-! ## names -/

namespace Text

theorem isRunOf_eq_true {p : Char → Bool} {cs : List Char} :
    isRunOf p cs = true ↔ cs ≠ [] ∧ ∀ c ∈ cs, p c = true := by
  simp [isRunOf]

def IsDotted (s : String) : Prop :=
  ∃ segments : List (List Char), 2 ≤ segments.length ∧
    (∀ w ∈ segments, w ≠ [] ∧ ∀ c ∈ w, isWordChar c = true) ∧ s.toList = joinWith '.' segments

theorem isServiceName_iff {s : String} : isServiceName s = true ↔ IsDotted s := by
  have hsplit : isServiceName s = true ↔ 2 ≤ (splitAt '.' s.toList).length ∧
      ∀ w ∈ splitAt '.' s.toList, w ≠ [] ∧ ∀ c ∈ w, isWordChar c = true := by
    simp [isServiceName, isRunOf_eq_true]
  rw [hsplit]
  constructor
  · rintro ⟨hlen, hall⟩
    exact ⟨_, hlen, hall, (joinWith_splitAt '.' s.toList).symm⟩
  · rintro ⟨segments, hlen, hall, hs⟩
    have hne : segments ≠ [] := by
      rintro rfl
      simp at hlen
    have hfree : ∀ w ∈ segments, '.' ∉ w := fun w hw hdot =>
      absurd ((hall w hw).2 '.' hdot) (by decide)
    rw [hs, splitAt_joinWith hne hfree]
    exact ⟨hlen, hall⟩

theorem not_mem_of_isRunOf {p : Char → Bool} {s : String} (h : isRunOf p s.toList = true) {c : Char}
    (hc : p c = false) : c ∉ s.toList := by
  intro hmem
  rw [(isRunOf_eq_true.mp h).2 c hmem] at hc
  cases hc

theorem isSeparator_eq_false {p : Char → Bool} (hp : separators.any p = false) {c : Char}
    (hc : p c = true) : isSeparator c = false := by
  by_contra hsep
  rw [Bool.not_eq_false, isSeparator, List.contains_iff_mem] at hsep
  rw [List.any_eq_false] at hp
  exact hp c hsep hc

theorem isText_of_isRunOf {p : Char → Bool} (hp : separators.any p = false) {s : String}
    (h : isRunOf p s.toList = true) : IsText s where
  ne_empty hs := (isRunOf_eq_true.mp h).1 (by rw [hs]; rfl)
  noSeparator c hc := isSeparator_eq_false hp ((isRunOf_eq_true.mp h).2 c hc)

theorem mem_joinWith {sep c : Char} {parts : List (List Char)} (h : c ∈ joinWith sep parts) :
    c = sep ∨ ∃ part ∈ parts, c ∈ part := by
  induction parts with
  | nil => exact absurd h List.not_mem_nil
  | cons part parts ih =>
    by_cases hparts : parts = []
    · subst hparts
      exact .inr ⟨part, List.mem_cons_self, h⟩
    · rw [joinWith_cons sep part hparts] at h
      rcases List.mem_append.mp h with h | h
      · exact .inr ⟨part, List.mem_cons_self, h⟩
      · rcases List.mem_cons.mp h with h | h
        · exact .inl h
        · rcases ih h with h | ⟨q, hq, hc⟩
          · exact .inl h
          · exact .inr ⟨q, List.mem_cons_of_mem part hq, hc⟩

theorem IsDotted.isText {s : String} (h : IsDotted s) : IsText s := by
  obtain ⟨segments, hlen, hall, hs⟩ := h
  constructor
  · rintro rfl
    have hdotted : isServiceName "" = true := isServiceName_iff.mpr ⟨segments, hlen, hall, hs⟩
    exact absurd hdotted (by decide)
  · intro c hc
    rw [hs] at hc
    rcases mem_joinWith hc with rfl | ⟨w, hw, hc⟩
    · decide
    · exact isSeparator_eq_false (by decide) ((hall w hw).2 c hc)

end Text

/-! ## services and arguments -/

namespace ServiceSpecifier

def WellFormed : ServiceSpecifier → Prop
  | .wildcard => True
  | .name n => Text.IsDotted n

theorem read_eq_ok_iff {text : String} {s : ServiceSpecifier} :
    read text = .ok s ↔ s.WellFormed ∧ text = s.render := by
  constructor
  · intro h
    unfold read at h
    split at h
    · next htext =>
      cases h
      exact ⟨trivial, htext⟩
    · split at h
      · next hname =>
        cases h
        exact ⟨Text.isServiceName_iff.mp hname, rfl⟩
      · cases h
  · rintro ⟨hs, rfl⟩
    cases s with
    | wildcard => rfl
    | name n =>
      have hn : Text.isServiceName n = true := Text.isServiceName_iff.mpr hs
      have hstar : n ≠ "*" := by
        rintro rfl
        exact absurd hn (by decide)
      rw [render, read, if_neg hstar, if_pos hn]

theorem WellFormed.isText_render {s : ServiceSpecifier} (hs : s.WellFormed) :
    IsText s.render := by
  cases s with
  | wildcard => decide
  | name n => exact Text.IsDotted.isText hs

theorem WellFormed.exists_toList {s : ServiceSpecifier} (hs : s.WellFormed) :
    ∃ c cs, s.render.toList = c :: cs ∧ (c = '*' ∨ Text.isWordChar c = true) := by
  cases s with
  | wildcard => exact ⟨'*', [], rfl, .inl rfl⟩
  | name n =>
    obtain ⟨segments, hlen, hall, hn⟩ := hs
    match segments, hlen with
    | first :: second :: rest, _ =>
      obtain ⟨hne, hfirst⟩ := hall first List.mem_cons_self
      obtain ⟨c, cs, rfl⟩ := List.exists_cons_of_ne_nil hne
      rw [Text.joinWith_cons _ _ (List.cons_ne_nil _ _), List.cons_append] at hn
      exact ⟨c, _, hn, .inr (hfirst c List.mem_cons_self)⟩

end ServiceSpecifier

namespace ArgumentSpecifier

def WellFormed : ArgumentSpecifier → Prop
  | .empty | .any => True
  | .specific text => IsText text

theorem read_eq_ok_iff {text : String} (htext : NoSeparator text) {a : ArgumentSpecifier} :
    read text = .ok a ↔ a.WellFormed ∧ text = a.render := by
  constructor
  · intro h
    unfold read at h
    split at h
    · next heq =>
      cases h
      exact ⟨trivial, heq⟩
    · split at h
      · next rest hrest =>
        rw [Text.after?_eq_some_iff] at hrest
        by_cases hempty : rest = ""
        · rw [if_pos hempty] at h
          cases h
          exact ⟨trivial, by rw [hrest, hempty]; rfl⟩
        · rw [if_neg hempty] at h
          cases h
          refine ⟨⟨hempty, fun c hc => htext c ?_⟩, hrest⟩
          rw [hrest, String.toList_append]
          exact List.mem_append_right _ hc
      · cases h
  · rintro ⟨ha, rfl⟩
    cases a with
    | empty => decide
    | any => rfl
    | specific text =>
      have hne : text ≠ "" := IsText.ne_empty ha
      have hplus : Text.after? "+" ("+" ++ text) = some text := Text.after?_eq_some_iff.mpr rfl
      have hstar : "+" ++ text ≠ "*" := by
        intro h
        simpa using congrArg String.toList h
      rw [render, read, if_neg hstar, hplus]
      simp only [if_neg hne]

theorem WellFormed.isText_render {a : ArgumentSpecifier} (ha : a.WellFormed) :
    IsText a.render := by
  cases a with
  | empty => decide
  | any => decide
  | specific text => exact IsText.behind ha "+" (by decide)

end ArgumentSpecifier

/-! ## qubes -/

namespace QubeSpecifier

def WellFormed : QubeSpecifier → Prop
  | .literal n | .dispVMNamed n => Text.isQubeName n = true
  | .adminVM | .anyVM | .default | .dispVM => True
  | .dispVMByTag t | .tag t => Text.isTagName t = true
  | .type t => Text.isTypeName t = true

theorem named_eq_ok_iff {part : NamedPart} {isName : String → Bool} {make : String → QubeSpecifier}
    {text name : String} {q : QubeSpecifier} :
    named part isName make text name = .ok q ↔ isName name = true ∧ make name = q := by
  unfold named
  split
  · next h => simp [h]
  · next h => simp [h]

theorem ne_of_mem {s t : String} {c : Char} (hs : c ∈ s.toList) (ht : c ∉ t.toList) : s ≠ t :=
  fun h => ht (h ▸ hs)

theorem after?_eq_none_of_mem {lead s : String} {c : Char} (hlead : c ∈ lead.toList)
    (hs : c ∉ s.toList) : Text.after? lead s = none := by
  cases h : Text.after? lead s with
  | none => rfl
  | some rest =>
    refine absurd ?_ hs
    rw [Text.after?_eq_some_iff.mp h, String.toList_append]
    exact List.mem_append_left _ hlead

theorem ne_keyword_of_colon (text : String) (h : ':' ∈ text.toList) :
    text ≠ "@adminvm" ∧ text ≠ "@anyvm" ∧ text ≠ "@default" ∧ text ≠ "@dispvm" :=
  ⟨ne_of_mem h (by decide), ne_of_mem h (by decide), ne_of_mem h (by decide),
    ne_of_mem h (by decide)⟩

theorem read_render {q : QubeSpecifier} (hq : q.WellFormed) : read q.render = .ok q := by
  cases q with
  | literal n =>
    have hn : Text.isQubeName n = true := hq
    have hat : '@' ∉ n.toList := Text.not_mem_of_isRunOf hn (by decide)
    have hne : ∀ keyword : String, '@' ∈ keyword.toList → n ≠ keyword :=
      fun keyword hk => (ne_of_mem hk hat).symm
    have hafter : ∀ lead : String, '@' ∈ lead.toList → Text.after? lead n = none :=
      fun lead hl => after?_eq_none_of_mem hl hat
    rw [render, read, if_neg (hne _ (by decide)), if_neg (hne _ (by decide)),
      if_neg (hne _ (by decide)), if_neg (hne _ (by decide)), hafter _ (by decide),
      hafter _ (by decide), hafter _ (by decide), hafter _ (by decide), hafter _ (by decide)]
    simp [hn]
  | adminVM => rfl
  | anyVM => rfl
  | default => rfl
  | dispVM => rfl
  | dispVMNamed n =>
    have hname : Text.after? "@dispvm:" ("@dispvm:" ++ n) = some n :=
      Text.after?_eq_some_iff.mpr rfl
    have htag : Text.after? "@dispvm:@tag:" ("@dispvm:" ++ n) = none := by
      have hat : '@' ∉ n.toList := Text.not_mem_of_isRunOf hq (by decide)
      have hnone : Text.after? "@tag:" n = none :=
        after?_eq_none_of_mem (by decide) hat
      simpa [Text.after?, Text.rest?] using hnone
    obtain ⟨h1, h2, h3, h4⟩ := ne_keyword_of_colon ("@dispvm:" ++ n) (by simp)
    rw [render, read, if_neg h1, if_neg h2, if_neg h3, if_neg h4, htag, hname]
    exact named_eq_ok_iff.mpr ⟨hq, rfl⟩
  | dispVMByTag t =>
    have hname : Text.after? "@dispvm:@tag:" ("@dispvm:@tag:" ++ t) = some t :=
      Text.after?_eq_some_iff.mpr rfl
    obtain ⟨h1, h2, h3, h4⟩ := ne_keyword_of_colon ("@dispvm:@tag:" ++ t) (by simp)
    rw [render, read, if_neg h1, if_neg h2, if_neg h3, if_neg h4, hname]
    exact named_eq_ok_iff.mpr ⟨hq, rfl⟩
  | tag t =>
    have hname : Text.after? "@tag:" ("@tag:" ++ t) = some t := Text.after?_eq_some_iff.mpr rfl
    have hbytag : Text.after? "@dispvm:@tag:" ("@tag:" ++ t) = none := by
      simp [Text.after?, Text.rest?]
    have hdisp : Text.after? "@dispvm:" ("@tag:" ++ t) = none := by simp [Text.after?, Text.rest?]
    obtain ⟨h1, h2, h3, h4⟩ := ne_keyword_of_colon ("@tag:" ++ t) (by simp)
    rw [render, read, if_neg h1, if_neg h2, if_neg h3, if_neg h4, hbytag, hdisp, hname]
    exact named_eq_ok_iff.mpr ⟨hq, rfl⟩
  | type t =>
    have hname : Text.after? "@type:" ("@type:" ++ t) = some t := Text.after?_eq_some_iff.mpr rfl
    have hbytag : Text.after? "@dispvm:@tag:" ("@type:" ++ t) = none := by
      simp [Text.after?, Text.rest?]
    have hdisp : Text.after? "@dispvm:" ("@type:" ++ t) = none := by simp [Text.after?, Text.rest?]
    have htag : Text.after? "@tag:" ("@type:" ++ t) = none := by simp [Text.after?, Text.rest?]
    obtain ⟨h1, h2, h3, h4⟩ := ne_keyword_of_colon ("@type:" ++ t) (by simp)
    rw [render, read, if_neg h1, if_neg h2, if_neg h3, if_neg h4, hbytag, hdisp, htag, hname]
    exact named_eq_ok_iff.mpr ⟨hq, rfl⟩

theorem WellFormed.eq_of_render {p q : QubeSpecifier} (hp : p.WellFormed) (hq : q.WellFormed)
    (h : p.render = q.render) : p = q := by
  have hread : read p.render = .ok q := h ▸ read_render hq
  rw [read_render hp] at hread
  injection hread

theorem read_eq_ok_iff {text : String} {q : QubeSpecifier} :
    read text = .ok q ↔ q.WellFormed ∧ text = q.render := by
  constructor
  · intro h
    unfold read at h
    split at h
    · next heq => cases h; exact ⟨trivial, heq⟩
    split at h
    · next heq => cases h; exact ⟨trivial, heq⟩
    split at h
    · next heq => cases h; exact ⟨trivial, heq⟩
    split at h
    · next heq => cases h; exact ⟨trivial, heq⟩
    split at h
    · next name hname =>
      obtain ⟨ht, rfl⟩ := named_eq_ok_iff.mp h
      exact ⟨ht, Text.after?_eq_some_iff.mp hname⟩
    split at h
    · next name hname =>
      obtain ⟨hn, rfl⟩ := named_eq_ok_iff.mp h
      exact ⟨hn, Text.after?_eq_some_iff.mp hname⟩
    split at h
    · next name hname =>
      obtain ⟨ht, rfl⟩ := named_eq_ok_iff.mp h
      exact ⟨ht, Text.after?_eq_some_iff.mp hname⟩
    split at h
    · next name hname =>
      obtain ⟨ht, rfl⟩ := named_eq_ok_iff.mp h
      exact ⟨ht, Text.after?_eq_some_iff.mp hname⟩
    split at h
    · cases h
    split at h
    · next hn => cases h; exact ⟨hn, rfl⟩
    split at h
    · cases h
    · cases h
  · rintro ⟨hq, rfl⟩
    exact read_render hq

theorem readAt_eq_ok_iff {position : Position} {text : String} {q : QubeSpecifier} :
    readAt position text = .ok q ↔
      (q.WellFormed ∧ q.legalIn position = true) ∧ text = q.render := by
  unfold readAt
  constructor
  · intro h
    split at h
    · next r hr =>
      obtain ⟨hwell, htext⟩ := read_eq_ok_iff.mp hr
      split at h
      · next hlegal => cases h; exact ⟨⟨hwell, hlegal⟩, htext⟩
      · cases h
    · cases h
  · rintro ⟨⟨hwell, hlegal⟩, htext⟩
    rw [read_eq_ok_iff.mpr ⟨hwell, htext⟩]
    exact if_pos hlegal

theorem WellFormed.isText_render {q : QubeSpecifier} (hq : q.WellFormed) : IsText q.render := by
  cases q with
  | literal n => exact Text.isText_of_isRunOf (by decide) hq
  | adminVM => decide
  | anyVM => decide
  | default => decide
  | dispVM => decide
  | dispVMNamed n => exact (Text.isText_of_isRunOf (by decide) hq).behind "@dispvm:" (by decide)
  | dispVMByTag t =>
    exact (Text.isText_of_isRunOf (by decide) hq).behind "@dispvm:@tag:" (by decide)
  | tag t => exact (Text.isText_of_isRunOf (by decide) hq).behind "@tag:" (by decide)
  | type t => exact (Text.isText_of_isRunOf (by decide) hq).behind "@type:" (by decide)

end QubeSpecifier

end QubePolicy
