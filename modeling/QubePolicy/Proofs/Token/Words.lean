import QubePolicy.Token
import Mathlib.Data.List.TakeWhile

/-!
# The words of a line

What a line says is read from the texts of its tokens; their columns only say where.

* `Token.words`              the texts of the tokens of a line;
* `Token.IsText`             a text that can be the text of a token;
* `isText_of_mem_words`      every word is one;
* `scanFrom_text_append`, `scanFrom_append`, `scanFrom_gap`   a text cut where no word is cut;
* `words_intercalate`        such texts with one space between neighbours are read back;
* `exists_of_words_eq_cons`  only separators stand in front of the first word.
-/

namespace QubePolicy.Token

def NoSeparator (s : String) : Prop := ∀ c ∈ s.toList, Text.isSeparator c = false

instance (s : String) : Decidable (NoSeparator s) :=
  decidable_of_iff (s.toList.any Text.isSeparator = false) (by simp [NoSeparator])

structure IsText (s : String) : Prop where
  ne_empty : s ≠ ""
  noSeparator : NoSeparator s

instance (s : String) : Decidable (IsText s) :=
  decidable_of_iff (s ≠ "" ∧ NoSeparator s) ⟨fun h => ⟨h.1, h.2⟩, fun h => ⟨h.1, h.2⟩⟩

def words (raw : String) : List String := (scan raw).map value

theorem noSeparator_append {s t : String} :
    NoSeparator (s ++ t) ↔ NoSeparator s ∧ NoSeparator t := by
  unfold NoSeparator
  rw [String.toList_append]
  exact List.forall_mem_append

theorem IsText.behind {s : String} (h : IsText s) (lead : String) (hlead : NoSeparator lead) :
    IsText (lead ++ s) where
  ne_empty hnil := h.ne_empty (String.append_eq_empty_iff.mp hnil).2
  noSeparator := noSeparator_append.mpr ⟨hlead, h.noSeparator⟩

theorem isWord_eq_true {c : Char} : isWord c = true ↔ Text.isSeparator c = false := by
  simp [isWord]

theorem isWord_eq_false {c : Char} : isWord c = false ↔ Text.isSeparator c = true := by
  simp [isWord]

theorem IsText.toList_ne_nil {s : String} (h : IsText s) : s.toList ≠ [] :=
  fun hs => h.ne_empty (String.toList_eq_nil_iff.mp hs)

theorem IsText.isWord {s : String} (h : IsText s) : ∀ c ∈ s.toList, isWord c = true :=
  fun c hc => isWord_eq_true.mpr (h.noSeparator c hc)

/-! ## texts of tokens -/

theorem isText_of_mem_scanFrom {column : Int} {cs : List Char} {t : Token}
    (h : t ∈ scanFrom column cs) : IsText t.value := by
  fun_induction scanFrom column cs with
  | case1 => exact absurd h List.not_mem_nil
  | case2 column c cs hc word ih =>
    rcases List.mem_cons.mp h with rfl | h
    · refine ⟨by simp [word, String.ofList_eq_empty_iff], fun d hd => ?_⟩
      rw [String.toList_ofList] at hd
      rcases List.mem_cons.mp hd with rfl | hd
      · exact isWord_eq_true.mp hc
      · exact isWord_eq_true.mp (List.mem_takeWhile_imp hd)
    · exact ih h
  | case3 column c cs hc ih => exact ih h

theorem isText_of_mem_words {raw w : String} (h : w ∈ words raw) : IsText w := by
  obtain ⟨t, ht, rfl⟩ := List.mem_map.mp h
  exact isText_of_mem_scanFrom ht

/-! ## scanning words and gaps -/

theorem map_value_scanFrom (a b : Int) (cs : List Char) :
    (scanFrom a cs).map value = (scanFrom b cs).map value := by
  fun_induction scanFrom a cs generalizing b with
  | case1 => simp
  | case2 a c cs hc word ih =>
    rw [scanFrom_word hc b, List.map_cons, List.map_cons]
    exact congrArg _ (ih _)
  | case3 a c cs hc ih =>
    rw [scanFrom_separator (by simpa using hc) b]
    exact ih _

theorem scanFrom_text_append (column : Int) {w : List Char} (hne : w ≠ [])
    (hw : ∀ c ∈ w, isWord c = true) (rest : List Char)
    (hrest : ∀ c, rest.head? = some c → isWord c = false) :
    scanFrom column (w ++ rest) =
      ⟨String.ofList w, column⟩ :: scanFrom (column + Text.width w) rest := by
  obtain ⟨c, cs, rfl⟩ := List.exists_cons_of_ne_nil hne
  have hcs : ∀ d ∈ cs, isWord d = true := fun d hd => hw d (List.mem_cons_of_mem c hd)
  have hstop : rest.takeWhile isWord = [] ∧ rest.dropWhile isWord = rest := by
    cases rest with
    | nil => exact ⟨rfl, rfl⟩
    | cons d rest => simp [hrest d rfl]
  rw [List.cons_append, scanFrom_word (hw c List.mem_cons_self),
    List.takeWhile_append_of_pos hcs, List.dropWhile_append_of_pos hcs, hstop.1, hstop.2,
    List.append_nil]

theorem scanFrom_append (column : Int) {front : List Char}
    (hfront : ∀ c, front.getLast? = some c → isWord c = false) (rest : List Char) :
    scanFrom column (front ++ rest) =
      scanFrom column front ++ scanFrom (column + Text.width front) rest := by
  fun_induction scanFrom column front with
  | case1 column => simp
  | case2 column c cs hc word ih =>
    have hparts : c :: cs = word ++ cs.dropWhile isWord := by simp [word]
    have hword : ∀ d ∈ word, isWord d = true :=
      List.forall_mem_cons.mpr ⟨hc, fun d hd => List.mem_takeWhile_imp hd⟩
    have hstop : cs.dropWhile isWord ≠ [] := by
      intro hnil
      rw [hnil, List.append_nil] at hparts
      have hlast := List.getLast?_eq_some_getLast (List.cons_ne_nil c cs)
      have hseparator := hfront _ hlast
      rw [hword _ (hparts ▸ List.getLast_mem _)] at hseparator
      cases hseparator
    rw [hparts, List.append_assoc, scanFrom_text_append column (List.cons_ne_nil _ _) hword,
      ih, List.cons_append]
    · rw [Text.width_append, Int.natCast_add, Int.add_assoc]
    · intro d hd
      refine hfront d ?_
      rw [hparts, List.getLast?_append, hd, Option.some_or]
    · intro d hd
      have hhead := List.head?_dropWhile_not isWord cs
      rw [List.head?_append, List.head?_eq_some_head hstop, Option.some_or] at hd
      rw [List.head?_eq_some_head hstop] at hhead
      exact Option.some.inj hd ▸ hhead
  | case3 column c cs hc ih =>
    have hword : isWord c = false := by simpa using hc
    rw [List.cons_append, scanFrom_separator hword, ih, Text.width_cons, Int.natCast_add,
      Int.add_assoc]
    intro d hd
    exact hfront d (by simp [List.getLast?_cons, hd])

theorem map_value_scanFrom_append (column : Int) {w : List Char} (hne : w ≠ [])
    (hw : ∀ c ∈ w, isWord c = true) (rest : List Char)
    (hrest : ∀ c, rest.head? = some c → isWord c = false) :
    (scanFrom column (w ++ rest)).map value =
      String.ofList w :: (scanFrom column rest).map value := by
  rw [scanFrom_text_append column hne hw rest hrest, List.map_cons]
  exact congrArg _ (map_value_scanFrom _ _ _)

theorem scanFrom_gap (column : Int) {gap : List Char}
    (hgap : ∀ c ∈ gap, Text.isSeparator c = true) : scanFrom column gap = [] := by
  induction gap generalizing column with
  | nil => exact scanFrom_nil column
  | cons c gap ih =>
    have hc : isWord c = false := isWord_eq_false.mpr (hgap c List.mem_cons_self)
    rw [scanFrom_separator hc]
    exact ih _ fun d hd => hgap d (List.mem_cons_of_mem c hd)

theorem map_value_scanFrom_gap (column : Int) (gap rest : List Char)
    (hgap : ∀ c ∈ gap, Text.isSeparator c = true) :
    (scanFrom column (gap ++ rest)).map value = (scanFrom column rest).map value := by
  have hlast : ∀ c, gap.getLast? = some c → isWord c = false := fun c hc =>
    isWord_eq_false.mpr (hgap c (List.mem_of_getLast? hc))
  rw [scanFrom_append column hlast, scanFrom_gap column hgap, List.nil_append]
  exact map_value_scanFrom _ _ _

/-! ## lines made of words -/

theorem words_intercalate {ws : List String} (h : ∀ w ∈ ws, IsText w) :
    words (" ".intercalate ws) = ws := by
  induction ws with
  | nil => simp [words, scan]
  | cons w ws ih =>
    have hw := h w List.mem_cons_self
    have ih' := ih fun v hv => h v (List.mem_cons_of_mem w hv)
    cases ws with
    | nil =>
      have := map_value_scanFrom_append 1 hw.toList_ne_nil hw.isWord [] fun c hc => by simp at hc
      simpa [words, scan] using this
    | cons v ws =>
      have hspace : Text.isSeparator ' ' = true := by decide
      have := map_value_scanFrom_append 1 hw.toList_ne_nil hw.isWord
        (' ' :: (" ".intercalate (v :: ws)).toList) fun c hc => by
          rw [List.head?_cons, Option.some.injEq] at hc
          subst hc
          decide
      rw [String.intercalate_cons_cons, words, scan, String.toList_append, String.toList_append,
        List.append_assoc]
      show (scanFrom 1 (w.toList ++ ' ' :: (" ".intercalate (v :: ws)).toList)).map value = _
      rw [this, String.ofList_toList]
      refine congrArg _ (Eq.trans ?_ ih')
      exact map_value_scanFrom_gap 1 [' '] _ fun c hc => List.mem_singleton.mp hc ▸ hspace

/-! ## the first word -/

theorem exists_of_scanFrom_eq_cons {column : Int} {cs : List Char} {t : Token} {ts : List Token}
    (h : scanFrom column cs = t :: ts) : ∃ gap rest,
      (∀ c ∈ gap, Text.isSeparator c = true) ∧ cs = gap ++ (t.value.toList ++ rest) := by
  fun_induction scanFrom column cs with
  | case1 => cases h
  | case2 column c cs hc word ih =>
    cases h
    refine ⟨[], cs.dropWhile isWord, by simp, ?_⟩
    rw [String.toList_ofList, List.cons_append, List.takeWhile_append_dropWhile, List.nil_append]
  | case3 column c cs hc ih =>
    obtain ⟨gap, rest, hgap, rfl⟩ := ih h
    refine ⟨c :: gap, rest, fun d hd => ?_, rfl⟩
    rcases List.mem_cons.mp hd with rfl | hd
    · simpa [isWord] using hc
    · exact hgap d hd

theorem exists_of_words_eq_cons {raw w : String} {ws : List String} (h : words raw = w :: ws) :
    ∃ gap rest, (∀ c ∈ gap, Text.isSeparator c = true) ∧
      raw.toList = gap ++ (w.toList ++ rest) := by
  obtain ⟨t, ts, hscan, rfl, _⟩ := List.map_eq_cons_iff.mp h
  exact exists_of_scanFrom_eq_cons hscan

theorem scanFrom_eq_nil {column : Int} {cs : List Char} (h : scanFrom column cs = []) :
    ∀ c ∈ cs, Text.isSeparator c = true := by
  fun_induction scanFrom column cs with
  | case1 => simp
  | case2 column c cs hc word ih => cases h
  | case3 column c cs hc ih =>
    intro d hd
    rcases List.mem_cons.mp hd with rfl | hd
    · simpa [isWord] using hc
    · exact ih h d hd

end QubePolicy.Token
