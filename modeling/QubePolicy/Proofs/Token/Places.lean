import QubePolicy.PolicyFile.FieldEdit
import QubePolicy.Proofs.Line.Shape

/-!
# Tokens in their places

A token says where in its line it stands, so its text can be exchanged for another one, or all that
is behind it for another text; the other words stay as they are.

* `Token.Between`                  a token with what is in front of it and what is behind it;
* `Token.Between.raw_eq`           the line around the token;
* `Token.Between.cons`, `word_append`   the place with a separator or a word more in front;
* `Token.exists_between_scanFrom`  every token of a text stands somewhere;
* `Token.Between.map_value_set`    the words with another one put in the place of a token;
* `Token.Between.map_value_take`   the words with another text put behind it;
* `Token.isText_of_isOneToken`     one token with nothing blank around it is the text of one.
-/

namespace QubePolicy

namespace Token

variable {column : Int} {cs front back : List Char} {i : Nat} {t : Token}

/-! ## places -/

/-- The token at the index, in a text that begins in the given column: it is between two texts, and
neither of them goes on with its word. -/
structure Between (column : Int) (cs : List Char) (i : Nat) (t : Token) (front back : List Char) :
    Prop where
  isText : IsText t.value
  text : cs = front ++ (t.value.toList ++ back)
  column_eq : t.column = column + Text.width front
  index : (scanFrom column front).length = i
  before : ∀ c, front.getLast? = some c → isWord c = false
  behind : ∀ c, back.head? = some c → isWord c = false

namespace Between

theorem raw_eq {raw : String} (h : Between 1 raw.toList i t front back) :
    t.column = Text.units (String.ofList front) + 1 ∧
      raw = String.ofList front ++ t.value ++ String.ofList back := by
  refine ⟨?_, ?_⟩
  · rw [h.column_eq, Text.units, String.toList_ofList, Int.add_comm]
  · rw [← String.toList_inj, h.text]
    simp

theorem cons {c : Char} (h : Between (column + Text.charWidth c) cs i t front back)
    (hc : isWord c = false) : Between column (c :: cs) i t (c :: front) back := by
  refine ⟨h.isText, ?_, ?_, ?_, ?_, h.behind⟩
  · rw [List.cons_append, ← h.text]
  · rw [h.column_eq, Text.width_cons, Int.natCast_add, Int.add_assoc]
  · rw [scanFrom_separator hc, h.index]
  · intro d hd
    cases hlast : front.getLast? with
    | none => simp_all
    | some e => exact h.before d (by simp_all [List.getLast?_cons])

theorem front_ne_nil (h : Between column cs i t front back)
    (hcs : ∀ c, cs.head? = some c → isWord c = false) : front ≠ [] := by
  rintro rfl
  obtain ⟨d, ds, hd⟩ := List.exists_cons_of_ne_nil h.isText.toList_ne_nil
  have hfalse := hcs d (by rw [h.text, hd]; rfl)
  rw [h.isText.isWord d (hd ▸ List.mem_cons_self)] at hfalse
  cases hfalse

theorem word_append {word : List Char} (h : Between (column + Text.width word) cs i t front back)
    (hne : word ≠ []) (hword : ∀ c ∈ word, isWord c = true)
    (hcs : ∀ c, cs.head? = some c → isWord c = false) :
    Between column (word ++ cs) (i + 1) t (word ++ front) back := by
  have hfront := h.front_ne_nil hcs
  have hhead : ∀ c, front.head? = some c → isWord c = false := fun c hc =>
    hcs c (by rw [h.text, List.head?_append, hc, Option.some_or])
  refine ⟨h.isText, ?_, ?_, ?_, ?_, h.behind⟩
  · rw [List.append_assoc, ← h.text]
  · rw [h.column_eq, Text.width_append, Int.natCast_add, Int.add_assoc]
  · rw [scanFrom_text_append column hne hword front hhead, List.length_cons, h.index]
  · intro d hd
    rw [List.getLast?_append, List.getLast?_eq_some_getLast hfront, Option.some_or] at hd
    exact h.before d ((List.getLast?_eq_some_getLast hfront).trans hd)

end Between

/-- **Every token of a text stands between two texts.** -/
theorem exists_between_scanFrom (column : Int) (cs : List Char) : ∀ i : Nat,
    (scanFrom column cs)[i]? = some t → ∃ front back, Between column cs i t front back := by
  fun_induction scanFrom column cs with
  | case1 column => exact fun _ h => by cases h
  | case2 column c cs hc word ih =>
    intro i h
    have hne : word ≠ [] := List.cons_ne_nil c _
    have hword : ∀ d ∈ word, isWord d = true :=
      List.forall_mem_cons.mpr ⟨hc, fun d hd => List.mem_takeWhile_imp hd⟩
    have hparts : c :: cs = word ++ cs.dropWhile isWord := by simp [word]
    have hstop : ∀ d, (cs.dropWhile isWord).head? = some d → isWord d = false := by
      intro d hd
      have hhead := List.head?_dropWhile_not isWord cs
      rw [hd] at hhead
      exact hhead
    cases i with
    | zero =>
      cases h
      have htext : IsText (String.ofList word) :=
        ⟨by rwa [ne_eq, String.ofList_eq_empty_iff], fun d hd =>
          isWord_eq_true.mp (hword d (by rwa [String.toList_ofList] at hd))⟩
      refine ⟨[], cs.dropWhile isWord, htext, ?_, by simp, by simp, by simp, hstop⟩
      rw [String.toList_ofList, List.nil_append]
      exact hparts
    | succ i =>
      obtain ⟨front, back, hbetween⟩ := ih i h
      rw [hparts]
      exact ⟨word ++ front, back, hbetween.word_append hne hword hstop⟩
  | case3 column c cs hc ih =>
    intro i h
    obtain ⟨front, back, hbetween⟩ := ih i h
    exact ⟨c :: front, back, hbetween.cons (Bool.eq_false_iff.mpr hc)⟩

/-! ## words around a place -/

namespace Between

theorem map_value (h : Between column cs i t front back) {v : String} (hv : IsText v) :
    (scanFrom column (front ++ (v.toList ++ back))).map value =
      (scanFrom column front).map value ++ v :: (scanFrom column back).map value := by
  rw [scanFrom_append column h.before, List.map_append,
    map_value_scanFrom_append _ hv.toList_ne_nil hv.isWord back h.behind, String.ofList_toList]
  exact congrArg (fun ws => _ ++ v :: ws) (map_value_scanFrom _ _ _)

/-- **A word put in the place of a token leaves the other words.** -/
theorem map_value_set (h : Between column cs i t front back) {v : String} (hv : IsText v) :
    (scanFrom column (front ++ (v.toList ++ back))).map value =
      ((scanFrom column cs).map value).set i v := by
  have hlength : ((scanFrom column front).map value).length = i := by
    rw [List.length_map, h.index]
  rw [h.map_value hv]
  conv => rhs; rw [h.text, h.map_value h.isText]
  rw [List.set_append_right _ _ (Nat.le_of_eq hlength), hlength, Nat.sub_self, List.set_cons_zero]

/-- **What is put behind a token leaves the words up to it.** -/
theorem map_value_take (h : Between column cs i t front back) {tail : List Char}
    (htail : ∀ c, tail.head? = some c → isWord c = false) :
    (scanFrom column (front ++ (t.value.toList ++ tail))).map value =
      ((scanFrom column cs).map value).take (i + 1) ++ (scanFrom column tail).map value := by
  have hlength : ((scanFrom column front).map value).length = i := by
    rw [List.length_map, h.index]
  have hother : Between column (front ++ (t.value.toList ++ tail)) i t front tail :=
    ⟨h.isText, rfl, h.column_eq, h.index, h.before, htail⟩
  rw [hother.map_value h.isText]
  conv => rhs; rw [h.text, h.map_value h.isText]
  rw [List.take_append, hlength, List.take_of_length_le (by omega)]
  simp

end Between

/-! ## values of one token -/

theorem Between.front_eq_nil (h : Between column cs 0 t front back) (htrim : Text.trim cs = cs) :
    front = [] := by
  cases hhead : front.head? with
  | none => exact List.head?_eq_none_iff.mp hhead
  | some c =>
    have hgap := scanFrom_eq_nil (List.eq_nil_of_length_eq_zero h.index) c (List.mem_of_head? hhead)
    have hfirst : (Text.trim cs).head? = some c := by
      rw [htrim, h.text, List.head?_append, hhead, Option.some_or]
    have hblank := Text.head?_trim hfirst
    rw [Text.isBlank_of_isSeparator hgap] at hblank
    cases hblank

theorem Between.back_eq_nil (h : Between column cs 0 t [] back) (hone : scanFrom column cs = [t])
    (htrim : Text.trim cs = cs) : back = [] := by
  have hwords := h.map_value h.isText
  rw [← h.text, hone] at hwords
  have hnil : scanFrom column back = [] := by simpa using hwords
  cases hlast : back.getLast? with
  | none => exact List.getLast?_eq_none_iff.mp hlast
  | some c =>
    have hgap := scanFrom_eq_nil hnil c (List.mem_of_getLast? hlast)
    have hend : (Text.trim cs).getLast? = some c := by
      rw [htrim, h.text, List.nil_append, List.getLast?_append, hlast, Option.some_or]
    have hblank := Text.getLast?_trim hend
    rw [Text.isBlank_of_isSeparator hgap] at hblank
    cases hblank

/-- **What is one token, with nothing blank around it, is the text of a token.** -/
theorem isText_of_isOneToken {v : String} (h : PolicyFile.isOneToken v = true) : IsText v := by
  unfold PolicyFile.isOneToken at h
  rw [Bool.and_eq_true, beq_iff_eq, beq_iff_eq] at h
  obtain ⟨t, hscan⟩ := List.length_eq_one_iff.mp h.1
  have hone : scanFrom 1 v.toList = [t] := hscan
  obtain ⟨front, back, hbetween⟩ :=
    exists_between_scanFrom 1 v.toList 0 (t := t) (by rw [hone]; rfl)
  have htrim : Text.trim v.toList = v.toList := Text.trimmed_eq_iff.mp h.2
  obtain rfl := hbetween.front_eq_nil htrim
  obtain rfl := hbetween.back_eq_nil hone htrim
  have hvalue : v = t.value := by
    rw [← String.toList_inj, hbetween.text, List.nil_append, List.append_nil]
  exact hvalue ▸ hbetween.isText

end Token

end QubePolicy
