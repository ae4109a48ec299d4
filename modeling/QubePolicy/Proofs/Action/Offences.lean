import QubePolicy.Proofs.Action.Clauses

/-!
# Parameters that offend

Which tokens behind the word of a grant are refused, and the columns at which that is told.

* `ToldInOrder`             spans that are told, one for each of some tokens, from left to right;
* `ToldInOrder.append`      what is told of neighbours is told of both, one after the other;
* `Grant.Offends`           a token is no assignment, or its key is given already or is that of the
                            other mode, or its target is none;
* `Action.offends_iff_mem_spans`   one token is refused where it offends;
* `Action.told_readClauses` what is told of the tokens behind the word is told in order.
-/

namespace QubePolicy

/-! ## in order -/

/-- The spans are told of tokens with indices from `a` up to `b`, from left to right: one span for
each token that offends, the one at which it does. -/
def ToldInOrder (offends : Nat → Span → Prop) (a b : Nat) (spans : List Span) : Prop :=
  ∃ offences : List (Nat × Span), offences.Pairwise (fun o p => o.1 < p.1) ∧
    (∀ i span, (i, span) ∈ offences ↔ (a ≤ i ∧ i < b) ∧ offends i span) ∧
    offences.map Prod.snd = spans

namespace ToldInOrder

variable {offends : Nat → Span → Prop} {a b c i : Nat} {spans more : List Span}

theorem nil (offends : Nat → Span → Prop) (a : Nat) : ToldInOrder offends a a [] :=
  ⟨[], .nil, fun i span => iff_of_false List.not_mem_nil fun h => by omega, rfl⟩

theorem one (hspans : ∀ span, span ∈ spans ↔ offends i span) (hlen : spans.length ≤ 1) :
    ToldInOrder offends i (i + 1) spans := by
  refine ⟨spans.map (i, ·), ?_, fun j span => ?_, by simp [Function.comp_def]⟩
  · match spans, hlen with
    | [], _ => exact .nil
    | [span], _ => exact List.pairwise_singleton _ _
  · rw [List.mem_map]
    constructor
    · rintro ⟨span, hspan, heq⟩
      obtain ⟨rfl, rfl⟩ := Prod.mk.inj heq
      exact ⟨by omega, (hspans _).mp hspan⟩
    · rintro ⟨hj, hoffends⟩
      obtain rfl : j = i := by omega
      exact ⟨span, (hspans span).mpr hoffends, rfl⟩

/-- **What is told of neighbours is told of both.** -/
theorem append (h : ToldInOrder offends a b spans) (hmore : ToldInOrder offends b c more)
    (hab : a ≤ b) (hbc : b ≤ c) : ToldInOrder offends a c (spans ++ more) := by
  obtain ⟨front, hfront, hmem, rfl⟩ := h
  obtain ⟨back, hback, hmem', rfl⟩ := hmore
  refine ⟨front ++ back, List.pairwise_append.mpr ⟨hfront, hback, ?_⟩, fun i span => ?_,
    List.map_append⟩
  · rintro ⟨i, span⟩ hi ⟨j, other⟩ hj
    have hib := ((hmem i span).mp hi).1.2
    have hbj := ((hmem' j other).mp hj).1.1
    show i < j
    omega
  · rw [List.mem_append, hmem, hmem', ← or_and_right]
    refine and_congr_left fun _ => ?_
    omega

theorem shift {offends' : Nat → Span → Prop} (h : ToldInOrder offends a b spans) (n : Nat)
    (hoffends : ∀ i span, a ≤ i → i < b → (offends' (i + n) span ↔ offends i span)) :
    ToldInOrder offends' (a + n) (b + n) spans := by
  obtain ⟨offences, hsorted, hmem, rfl⟩ := h
  refine ⟨offences.map fun o => (o.1 + n, o.2), ?_, fun j span => ?_, by simp [Function.comp_def]⟩
  · rw [List.pairwise_map]
    exact hsorted.imp fun {o p} hlt => show o.1 + n < p.1 + n by omega
  · rw [List.mem_map]
    constructor
    · rintro ⟨⟨i, span'⟩, hi, heq⟩
      obtain ⟨rfl, rfl⟩ := Prod.mk.inj heq
      obtain ⟨hrange, hi⟩ := (hmem i span').mp hi
      refine ⟨?_, (hoffends i span' hrange.1 hrange.2).mpr hi⟩
      show a + n ≤ i + n ∧ i + n < b + n
      omega
    · rintro ⟨hrange, hj⟩
      obtain ⟨i, rfl⟩ : ∃ i, j = i + n := ⟨j - n, by omega⟩
      have hi : a ≤ i ∧ i < b := by omega
      exact ⟨(i, span), (hmem i span).mpr ⟨hi, (hoffends i span hi.1 hi.2).mp hj⟩, rfl⟩

end ToldInOrder

/-! ## spans -/

namespace Checked

variable {α β : Type}

def spans (a : Checked α) : List Span := a.findings.map fun f => f.place.span

theorem spans_map (f : α → β) (a : Checked α) : (f <$> a).spans = a.spans := by
  rw [spans, findings_map, spans]

theorem spans_apply (f : Checked (α → β)) (a : Checked α) :
    (f <*> a).spans = f.spans ++ a.spans := by
  rw [spans, findings_apply, List.map_append, spans, spans]

theorem spans_refused (place : Place) (p : Problem) :
    (ofExcept place (.error p) : Checked α).spans = [place.span] := rfl

theorem length_spans_ofExcept (place : Place) (e : Except Problem α) :
    (ofExcept place e).spans.length ≤ 1 := by
  cases e <;> simp [ofExcept, spans, findings]

theorem mem_spans_ofExcept {place : Place} {e : Except Problem α} {span : Span} :
    span ∈ (ofExcept place e).spans ↔ (¬∃ a, e = .ok a) ∧ span = place.span := by
  cases e <;> simp [ofExcept, spans, findings]

end Checked

namespace Token

def span (t : Token) : Span := ⟨t.column, t.endColumn⟩

/-- The token is the assignment `KEY=VALUE`; its key is not empty and ends at the first `=`. -/
def Assigns (t : Token) (key value : String) : Prop :=
  (Parameter.mk key value).HasKey ∧ t.value = (Parameter.mk key value).render

variable {t : Token} {key value : String}

theorem assignment?_eq_none_iff : t.assignment? = none ↔
    '=' ∉ t.value.toList ∨ ∃ rest, t.value = "=" ++ rest := by
  constructor
  · intro hnone
    by_cases hequals : '=' ∈ t.value.toList
    · right
      obtain ⟨d, value, hdrop⟩ := List.exists_cons_of_ne_nil
        fun hnil : t.value.toList.dropWhile (· != '=') = [] => by
          simpa using List.dropWhile_eq_nil_iff.mp hnil '=' hequals
      cases htake : t.value.toList.takeWhile (· != '=') with
      | cons c key =>
        rw [assignment?, htake, hdrop] at hnone
        cases hnone
      | nil =>
        have hd : d = '=' := by
          have hhead := List.head?_dropWhile_not (· != '=') t.value.toList
          rw [hdrop] at hhead
          simpa using hhead
        have hparts := List.takeWhile_append_dropWhile (p := (· != '=')) (l := t.value.toList)
        rw [htake, hdrop, hd] at hparts
        refine ⟨String.ofList value, String.toList_inj.mp ?_⟩
        rw [← hparts]
        simp
    · exact .inl hequals
  · intro h
    refine Option.eq_none_iff_forall_ne_some.mpr ?_
    rintro ⟨key, value⟩ hassign
    obtain ⟨hkey, hvalue⟩ := assignment?_eq_some_iff.mp hassign
    rcases h with hequals | ⟨rest, hfirst⟩
    · exact hequals (by rw [hvalue, Parameter.render]; simp)
    · obtain ⟨c, cs, hcs⟩ := List.exists_cons_of_ne_nil
        fun hnil : key.toList = [] => hkey.ne_empty (String.toList_eq_nil_iff.mp hnil)
      have htext := congrArg String.toList (hfirst.symm.trans hvalue)
      simp only [Parameter.render, String.toList_append, hcs] at htext
      have hc : '=' = c := (List.cons.inj htext).1
      exact hkey.noEquals (by rw [hcs, hc]; exact List.mem_cons_self)

theorem span_value (h : t.Assigns key value) : (Place.value t key value).span =
    ⟨t.column + Text.units key + 1, t.endColumn⟩ := by
  have hunits : (Text.units t.value : Int) = Text.units key + 1 + Text.units value := by
    rw [h.2, Parameter.render]
    simp [Text.units, Text.charWidth, Int.add_assoc]
  refine congrArg (Span.mk _) ?_
  rw [endColumn, hunits, ← Int.add_assoc, ← Int.add_assoc]
  rfl

end Token

/-! ## offences -/

/-- **A token behind the word of a grant offends** at some columns: one without an equals sign or
without a key, one whose key is that of an earlier token or of the other mode, and one that names a
target which is not told by its value. -/
inductive Grant.Offends (mode : Grant) (ts : List Token) : Nat → Span → Prop
  | noEquals {i t} : ts[i]? = some t → '=' ∉ t.value.toList → mode.Offends ts i t.span
  | noKey {i t rest} : ts[i]? = some t → t.value = "=" ++ rest → mode.Offends ts i t.span
  | repeated {i j t u key value earlier} : ts[i]? = some t → t.Assigns key value →
      j < i → ts[j]? = some u → u.Assigns key earlier → mode.Offends ts i t.span
  | ofOther {i t value} : ts[i]? = some t → t.Assigns mode.other.targetKey value →
      mode.Offends ts i t.span
  | target {i t value} : ts[i]? = some t → t.Assigns mode.targetKey value →
      (∀ j u earlier, j < i → ts[j]? = some u → ¬u.Assigns mode.targetKey earlier) →
      (¬∃ q : QubeSpecifier, (q.WellFormed ∧ q.legalIn .parameter = true) ∧ value = q.render) →
      mode.Offends ts i ⟨t.column + Text.units mode.targetKey + 1, t.endColumn⟩

theorem Grant.Offends.lt_length {mode : Grant} {ts : List Token} {i : Nat} {span : Span}
    (h : mode.Offends ts i span) : i < ts.length := by
  cases h with
  | noEquals hi | noKey hi | repeated hi | ofOther hi | target hi =>
    exact (List.getElem?_eq_some_iff.mp hi).1

namespace Action

variable {mode : Grant} {front rest : List Token} {t : Token} {seen : List String}
  {key value : String} {span : Span}

theorem offends_iff_of_none (hassign : t.assignment? = none) :
    mode.Offends (front ++ t :: rest) front.length span ↔ span = t.span := by
  have ht : (front ++ t :: rest)[front.length]? = some t := by simp
  have hnot (key value : String) : ¬t.Assigns key value := fun h => by
    rw [Token.assignment?_eq_some_iff.mpr h] at hassign
    cases hassign
  constructor
  · intro h
    cases h with
    | noEquals hi | noKey hi | repeated hi | ofOther hi =>
      rw [Option.some.inj (ht.symm.trans hi)]
    | target hi hassigns =>
      rw [← Option.some.inj (ht.symm.trans hi)] at hassigns
      exact absurd hassigns (hnot _ _)
  · rintro rfl
    rcases Token.assignment?_eq_none_iff.mp hassign with hequals | ⟨value, hvalue⟩
    · exact .noEquals ht hequals
    · exact .noKey ht hvalue

theorem offends_iff_of_assigns (hassign : t.Assigns key value) :
    mode.Offends (front ++ t :: rest) front.length span ↔
      (((∃ u ∈ front, ∃ earlier, u.Assigns key earlier) ∨ key = mode.other.targetKey) ∧
        span = t.span) ∨
      (key = mode.targetKey ∧ (¬∃ u ∈ front, ∃ earlier, u.Assigns key earlier) ∧
        (¬∃ q : QubeSpecifier, (q.WellFormed ∧ q.legalIn .parameter = true) ∧ value = q.render) ∧
        span = (Place.value t key value).span) := by
  have ht : (front ++ t :: rest)[front.length]? = some t := by simp
  have hsome := Token.assignment?_eq_some_iff.mpr hassign
  have hfront {j : Nat} {u : Token} (hj : j < front.length) :
      (front ++ t :: rest)[j]? = some u ↔ front[j]? = some u := by
    rw [List.getElem?_append_left hj]
  have hsame {key' value' : String} (h : t.Assigns key' value') : key' = key ∧ value' = value := by
    have heq := hsome.symm.trans (Token.assignment?_eq_some_iff.mpr h)
    cases heq
    exact ⟨rfl, rfl⟩
  constructor
  · intro h
    cases h with
    | noEquals hi hequals =>
      rw [← Option.some.inj (ht.symm.trans hi)] at hequals
      rw [Token.assignment?_eq_none_iff.mpr (.inl hequals)] at hsome
      cases hsome
    | noKey hi hvalue =>
      rw [← Option.some.inj (ht.symm.trans hi)] at hvalue
      rw [Token.assignment?_eq_none_iff.mpr (.inr ⟨_, hvalue⟩)] at hsome
      cases hsome
    | repeated hi hassigns hj hu hearlier =>
      obtain rfl := Option.some.inj (ht.symm.trans hi)
      obtain ⟨rfl, rfl⟩ := hsame hassigns
      exact .inl ⟨.inl ⟨_, List.mem_of_getElem? ((hfront hj).mp hu), _, hearlier⟩, rfl⟩
    | ofOther hi hassigns =>
      obtain rfl := Option.some.inj (ht.symm.trans hi)
      obtain ⟨rfl, rfl⟩ := hsame hassigns
      exact .inl ⟨.inr rfl, rfl⟩
    | target hi hassigns hnew hillegal =>
      obtain rfl := Option.some.inj (ht.symm.trans hi)
      obtain ⟨rfl, rfl⟩ := hsame hassigns
      refine .inr ⟨rfl, ?_, hillegal, (Token.span_value hassign).symm⟩
      rintro ⟨u, hu, earlier, hearlier⟩
      obtain ⟨j, hj, hget⟩ := List.getElem_of_mem hu
      exact hnew j u earlier hj ((hfront hj).mpr (List.getElem?_eq_some_iff.mpr ⟨hj, hget⟩))
        hearlier
  · rintro (⟨⟨u, hu, earlier, hearlier⟩ | rfl, rfl⟩ | ⟨rfl, hnew, hillegal, rfl⟩)
    · obtain ⟨j, hj, hget⟩ := List.getElem_of_mem hu
      exact .repeated ht hassign hj ((hfront hj).mpr (List.getElem?_eq_some_iff.mpr ⟨hj, hget⟩))
        hearlier
    · exact .ofOther ht hassign
    · rw [Token.span_value hassign]
      refine .target ht hassign (fun j u earlier hj hu hearlier => hnew ?_) hillegal
      exact ⟨u, List.mem_of_getElem? ((hfront hj).mp hu), earlier, hearlier⟩

/-- **A token is refused where it offends**, if the keys in front of it are known. -/
theorem offends_iff_mem_spans
    (hseen : ∀ key, key ∈ seen ↔ ∃ u ∈ front, ∃ value, u.Assigns key value) (span : Span) :
    span ∈ (readClause mode seen t).spans ↔
      mode.Offends (front ++ t :: rest) front.length span := by
  unfold readClause
  split
  · next hnone =>
    rw [offends_iff_of_none hnone]
    exact List.mem_singleton
  · next key value hsome =>
    have hassign := Token.assignment?_eq_some_iff.mp hsome
    rw [offends_iff_of_assigns hassign, ← hseen key]
    have hne := mode.targetKey_ne_other
    by_cases hkey : key ∈ seen
    · rw [if_pos (List.contains_iff_mem.mpr hkey)]
      simp [hkey, Checked.spans_refused, Token.span]
    rw [if_neg (by simpa using hkey)]
    by_cases hother : key = mode.other.targetKey
    · rw [if_pos hother]
      simp [hother, hne.symm, Checked.spans_refused, Token.span]
    rw [if_neg hother]
    by_cases htarget : key = mode.targetKey
    · subst htarget
      rw [if_pos rfl, Checked.spans_map, Checked.mem_spans_ofExcept]
      simp [hkey, hne, QubeSpecifier.readAt_eq_ok_iff]
    · rw [if_neg htarget]
      simp [hkey, hother, htarget, Checked.spans, Checked.findings, pure]

theorem length_spans_readClause (mode : Grant) (seen : List String) (t : Token) :
    (readClause mode seen t).spans.length ≤ 1 := by
  unfold readClause
  split
  · exact Checked.length_spans_ofExcept _ _
  · split
    · exact Checked.length_spans_ofExcept _ _
    · split
      · exact Checked.length_spans_ofExcept _ _
      · split
        · rw [Checked.spans_map]
          exact Checked.length_spans_ofExcept _ _
        · exact Nat.zero_le _

theorem mem_seen_iff (hseen : ∀ key, key ∈ seen ↔ ∃ u ∈ front, ∃ value, u.Assigns key value)
    (t : Token) (key : String) : key ∈ (t.assignment?.map Prod.fst).toList ++ seen ↔
      ∃ u ∈ front ++ [t], ∃ value, u.Assigns key value := by
  have ht : key ∈ (t.assignment?.map Prod.fst).toList ↔ ∃ value, t.Assigns key value := by
    rw [Option.mem_toList, Option.map_eq_some_iff]
    constructor
    · rintro ⟨⟨key, value⟩, hassign, rfl⟩
      exact ⟨value, Token.assignment?_eq_some_iff.mp hassign⟩
    · rintro ⟨value, hassign⟩
      exact ⟨(key, value), Token.assignment?_eq_some_iff.mpr hassign, rfl⟩
  rw [List.mem_append, ht, hseen]
  simp only [List.mem_append, List.mem_singleton, or_and_right, exists_or, exists_eq_left]
  exact or_comm

/-- **What is told of the tokens behind the word of a grant is told in order.** -/
theorem told_readClauses (mode : Grant) (seen : List String) (front : List Token)
    (hseen : ∀ key, key ∈ seen ↔ ∃ u ∈ front, ∃ value, u.Assigns key value) (ts : List Token) :
    ToldInOrder (mode.Offends (front ++ ts)) front.length (front.length + ts.length)
      (readClauses mode seen ts).spans := by
  induction ts generalizing front seen with
  | nil => exact .nil _ _
  | cons t ts ih =>
    rw [readClauses, Checked.spans_apply, Checked.spans_map]
    have hone : ToldInOrder (mode.Offends (front ++ t :: ts)) front.length (front.length + 1)
        (readClause mode seen t).spans :=
      .one (offends_iff_mem_spans hseen) (length_spans_readClause mode seen t)
    have hrest := ih _ _ (mem_seen_iff hseen t)
    rw [List.append_assoc, List.singleton_append, List.length_append, List.length_singleton,
      Nat.add_assoc] at hrest
    rw [List.length_cons, Nat.add_comm ts.length]
    exact hone.append hrest (Nat.le_succ _) (by omega)

end Action

end QubePolicy
