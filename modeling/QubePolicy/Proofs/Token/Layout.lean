import QubePolicy.Proofs.Text.Order
import QubePolicy.Proofs.Token.Places
import Mathlib.Data.List.Pairwise

/-!
# Lines as words and gaps

The tokens of a line are the longest runs of characters between separators, in their order, and what
is left of the line are the gaps around them. So a line can be taken apart and put together again.

* `Token.IsRun`               a longest run of a line, with its column;
* `Token.mem_scan_iff`        the tokens of a line are its longest runs;
* `Token.within_scanFrom`, `pairwise_scanFrom`   they stand inside the line, each behind a gap;
* `Token.existsUnique_mem_scan`   every character that separates nothing stands in one of them;
* `Token.layOut`              the line of some words with gaps around them;
* `Token.words_layOut`, `exists_layOut`   such a line has these words, and every line is one;
* `Token.scan_exact`          all of it.
-/

namespace QubePolicy

theorem Text.length_unitList (s : String) : (unitList s).length = units s := by
  rw [unitList, units]
  induction s.toList with
  | nil => rfl
  | cons c cs ih => rw [List.flatMap_cons, List.length_append, length_unitsOf, ih, width_cons]

namespace Token

variable {column : Int} {cs : List Char} {raw : String} {t : Token}

/-! ## runs -/

/-- **A longest run of the line**: characters that separate nothing, between two parts of the line
that end and begin with a separator if there is anything of them, in the column behind the first
part. -/
def IsRun (raw : String) (t : Token) : Prop :=
  ∃ front back : String, raw = front ++ t.value ++ back ∧ t.column = Text.units front + 1 ∧
    IsText t.value ∧
    (∀ c, front.toList.getLast? = some c → Text.isSeparator c = true) ∧
    ∀ c, back.toList.head? = some c → Text.isSeparator c = true

theorem isRun_of_mem_scan (h : t ∈ scan raw) : IsRun raw t := by
  obtain ⟨i, hi, hget⟩ := List.getElem_of_mem h
  obtain ⟨front, back, hbetween⟩ :=
    exists_between_scanFrom 1 raw.toList i (List.getElem?_eq_some_iff.mpr ⟨hi, hget⟩)
  obtain ⟨hcolumn, hraw⟩ := hbetween.raw_eq
  refine ⟨String.ofList front, String.ofList back, hraw, hcolumn, hbetween.isText, ?_, ?_⟩
  · intro c hc
    rw [String.toList_ofList] at hc
    exact isWord_eq_false.mp (hbetween.before c hc)
  · intro c hc
    rw [String.toList_ofList] at hc
    exact isWord_eq_false.mp (hbetween.behind c hc)

theorem mem_scan_of_isRun (h : IsRun raw t) : t ∈ scan raw := by
  obtain ⟨front, back, rfl, hcolumn, htext, hbefore, hbehind⟩ := h
  have hbefore' : ∀ c, front.toList.getLast? = some c → isWord c = false := fun c hc =>
    isWord_eq_false.mpr (hbefore c hc)
  have hbehind' : ∀ c, back.toList.head? = some c → isWord c = false := fun c hc =>
    isWord_eq_false.mpr (hbehind c hc)
  have htoken : (⟨String.ofList t.value.toList, 1 + Text.width front.toList⟩ : Token) = t := by
    rw [String.ofList_toList, ← Text.units, Int.add_comm, ← hcolumn]
  rw [scan, String.toList_append, String.toList_append, List.append_assoc,
    scanFrom_append 1 hbefore', scanFrom_text_append _ htext.toList_ne_nil htext.isWord _ hbehind',
    htoken]
  exact List.mem_append_right _ List.mem_cons_self

/-- **The tokens of a line are its longest runs.** -/
theorem mem_scan_iff : t ∈ scan raw ↔ IsRun raw t := ⟨isRun_of_mem_scan, mem_scan_of_isRun⟩

theorem IsRun.units_eq (h : IsRun raw t) : 1 ≤ t.column ∧
    ((Text.unitList raw).drop (t.column - 1).toNat).take (Text.units t.value) =
      Text.unitList t.value := by
  obtain ⟨front, back, rfl, hcolumn, -⟩ := h
  have hfront : (t.column - 1).toNat = (Text.unitList front).length := by
    rw [Text.length_unitList, hcolumn]
    omega
  refine ⟨by omega, ?_⟩
  rw [Text.unitList_append, Text.unitList_append, hfront, List.append_assoc, List.drop_left,
    ← Text.length_unitList, List.take_left]

/-! ## columns -/

theorem IsText.units_pos {s : String} (h : IsText s) : 0 < Text.units s := by
  rw [Nat.pos_iff_ne_zero, Text.units, Ne, Text.width_eq_zero]
  exact h.toList_ne_nil

theorem column_lt_endColumn (h : IsText t.value) : t.column < t.endColumn := by
  have hpos := h.units_pos
  rw [endColumn]
  omega

/-- **A token stands inside its text.** -/
theorem within_scanFrom (h : t ∈ scanFrom column cs) :
    column ≤ t.column ∧ t.column < t.endColumn ∧ t.endColumn ≤ column + Text.width cs := by
  obtain ⟨i, hi, hget⟩ := List.getElem_of_mem h
  obtain ⟨front, back, hbetween⟩ :=
    exists_between_scanFrom column cs i (List.getElem?_eq_some_iff.mpr ⟨hi, hget⟩)
  have hcolumn := hbetween.column_eq
  have hwidth : Text.width cs = Text.width front + (Text.units t.value + Text.width back) := by
    rw [hbetween.text, Text.width_append, Text.width_append, Text.units]
  refine ⟨by omega, column_lt_endColumn hbetween.isText, ?_⟩
  rw [endColumn]
  omega

theorem column_lt_of_mem_scanFrom (hcs : ∀ c, cs.head? = some c → isWord c = false)
    (h : t ∈ scanFrom column cs) : column < t.column := by
  cases cs with
  | nil =>
    rw [scanFrom_nil] at h
    cases h
  | cons c cs =>
    rw [scanFrom_separator (hcs c rfl)] at h
    have hpos := Text.charWidth_pos c
    have hwithin := (within_scanFrom h).1
    omega

theorem endColumn_ofList (word : List Char) (column : Int) :
    (⟨String.ofList word, column⟩ : Token).endColumn = column + Text.width word := by
  rw [endColumn, Text.units, String.toList_ofList]

/-- **Each token ends in front of a gap**, and the next ones begin behind it. -/
theorem pairwise_scanFrom (column : Int) (cs : List Char) :
    (scanFrom column cs).Pairwise fun t u => t.endColumn < u.column := by
  fun_induction scanFrom column cs with
  | case1 => exact .nil
  | case2 column c cs hc word ih =>
    refine List.pairwise_cons.mpr ⟨fun u hu => ?_, ih⟩
    rw [endColumn_ofList]
    refine column_lt_of_mem_scanFrom (fun d hd => ?_) hu
    have hhead := List.head?_dropWhile_not isWord cs
    rwa [hd] at hhead
  | case3 column c cs hc ih => exact ih

/-! ## characters -/

/-- The token stands in the columns from the first to the last one. -/
def Holds (first last : Int) (t : Token) : Prop := t.column ≤ first ∧ last < t.endColumn

/-- **A character that separates nothing stands in a token.** -/
theorem exists_holds_of_isWord (column : Int) {c : Char} (hc : isWord c = true) (back : List Char) :
    ∀ front, cs = front ++ c :: back → ∃ t ∈ scanFrom column cs,
      t.Holds (column + Text.width front) (column + Text.width front + Text.charWidth c - 1) := by
  fun_induction scanFrom column cs with
  | case1 => intro front h; simp at h
  | case2 column d ds hd word ih =>
    intro front h
    have hparts : d :: ds = word ++ ds.dropWhile isWord := by simp [word]
    rw [hparts] at h
    rcases List.append_eq_append_iff.mp h with ⟨more, rfl, hmore⟩ | ⟨more, hmore, hrest⟩
    · obtain ⟨t, ht, hholds⟩ := ih more hmore
      refine ⟨t, List.mem_cons_of_mem _ ht, ?_⟩
      rwa [Text.width_append, Int.natCast_add, ← Int.add_assoc]
    · cases more with
      | nil =>
        obtain ⟨t, ht, hholds⟩ := ih [] hrest.symm
        rw [List.append_nil] at hmore
        refine ⟨t, List.mem_cons_of_mem _ ht, ?_⟩
        rwa [Text.width_nil, Int.natCast_zero, Int.add_zero, hmore] at hholds
      | cons e more =>
        obtain rfl : c = e := (List.cons.inj hrest).1
        have hwidth : Text.width word =
            Text.width front + (Text.charWidth c + Text.width more) := by
          rw [hmore, Text.width_append, Text.width_cons]
        refine ⟨⟨String.ofList word, column⟩, List.mem_cons_self, ?_, ?_⟩
        · show column ≤ _
          omega
        · rw [endColumn_ofList, hwidth]
          omega
  | case3 column d ds hd ih =>
    intro front h
    cases front with
    | nil =>
      obtain rfl : d = c := (List.cons.inj h).1
      exact absurd hc hd
    | cons e front =>
      obtain ⟨rfl, hcs⟩ := List.cons.inj h
      obtain ⟨t, ht, hholds⟩ := ih front hcs
      refine ⟨t, ht, ?_⟩
      rwa [Text.width_cons, Int.natCast_add, ← Int.add_assoc]

theorem eq_of_holds {t u : Token} {n : Int} (ht : t ∈ scan raw) (hu : u ∈ scan raw)
    (htn : t.Holds n n) (hun : u.Holds n n) : t = u := by
  by_contra hne
  have hapart : (scan raw).Pairwise fun t u => t.endColumn < u.column ∨ u.endColumn < t.column :=
    (pairwise_scanFrom 1 raw.toList).imp .inl
  have hsymm : Std.Symm fun t u : Token => t.endColumn < u.column ∨ u.endColumn < t.column :=
    ⟨fun _ _ => Or.symm⟩
  unfold Holds at htn hun
  rcases hapart.forall ht hu hne with h | h <;> omega

theorem existsUnique_mem_scan {front back : String} {c : Char}
    (hraw : raw = front ++ String.singleton c ++ back) (hc : Text.isSeparator c = false) :
    ∃! t, t ∈ scan raw ∧
      t.Holds (Text.units front + 1) (Text.units front + Text.charWidth c) := by
  have htext : raw.toList = front.toList ++ c :: back.toList := by
    rw [hraw]
    simp
  obtain ⟨t, ht, hholds⟩ := exists_holds_of_isWord 1 (isWord_eq_true.mpr hc) _ _ htext
  have hpos := Text.charWidth_pos c
  unfold Holds at hholds ⊢
  rw [Text.units]
  refine ⟨t, ⟨ht, by omega, by omega⟩, ?_⟩
  rintro u ⟨hu, hfirst, hlast⟩
  exact eq_of_holds (n := Text.width front.toList + 1) hu ht ⟨hfirst, by omega⟩
    ⟨by omega, by omega⟩

/-! ## words and gaps -/

def IsGap (s : String) : Prop := ∀ c ∈ s.toList, Text.isSeparator c = true

instance (s : String) : Decidable (IsGap s) :=
  decidable_of_iff (s.toList.all Text.isSeparator = true) (by simp [IsGap])

/-- Texts of tokens, each with the gap behind it, and something in each gap but the last one. -/
def Spaced : List (String × String) → Prop
  | [] => True
  | (text, gap) :: pieces => IsText text ∧ IsGap gap ∧ (pieces ≠ [] → gap ≠ "") ∧ Spaced pieces

instance decidableSpaced : ∀ pieces, Decidable (Spaced pieces)
  | [] => .isTrue trivial
  | (text, gap) :: pieces =>
    have := decidableSpaced pieces
    inferInstanceAs (Decidable (IsText text ∧ IsGap gap ∧ (pieces ≠ [] → gap ≠ "") ∧
      Spaced pieces))

/-- The line of the texts with the gaps behind them, and another gap in front of all. -/
def layOut (lead : String) : List (String × String) → String
  | [] => lead
  | (text, gap) :: pieces => lead ++ text ++ layOut gap pieces

variable {lead gap : String} {pieces : List (String × String)}

theorem layOut_append (front lead : String) (pieces : List (String × String)) :
    layOut (front ++ lead) pieces = front ++ layOut lead pieces := by
  cases pieces with
  | nil => rfl
  | cons piece pieces => rw [layOut, layOut, String.append_assoc, String.append_assoc,
      String.append_assoc]

theorem isWord_of_head?_layOut (hgap : IsGap gap) (hapart : pieces ≠ [] → gap ≠ "") (c : Char)
    (hc : (layOut gap pieces).toList.head? = some c) : isWord c = false := by
  have hfront : layOut gap pieces = gap ++ layOut "" pieces := by
    rw [← layOut_append, String.append_empty]
  cases hchars : gap.toList with
  | nil =>
    obtain rfl := String.toList_eq_nil_iff.mp hchars
    obtain rfl : pieces = [] := by_contra fun hne => hapart hne rfl
    cases hc
  | cons d ds =>
    rw [hfront, String.toList_append, hchars, List.cons_append, List.head?_cons] at hc
    obtain rfl := Option.some.inj hc
    exact isWord_eq_false.mpr (hgap d (hchars ▸ List.mem_cons_self))

/-- **The words of such a line are the texts that it is made of.** -/
theorem words_layOut (hlead : IsGap lead) (h : Spaced pieces) :
    words (layOut lead pieces) = pieces.map Prod.fst := by
  induction pieces generalizing lead with
  | nil =>
    rw [layOut, words, scan, scanFrom_gap 1 hlead]
    rfl
  | cons piece pieces ih =>
    obtain ⟨text, gap⟩ := piece
    obtain ⟨htext, hgap, hapart, hrest⟩ := h
    have hstop := isWord_of_head?_layOut hgap hapart
    rw [layOut, words, scan, String.toList_append, String.toList_append, List.append_assoc,
      map_value_scanFrom_gap 1 _ _ hlead,
      map_value_scanFrom_append 1 htext.toList_ne_nil htext.isWord _ hstop, String.ofList_toList,
      List.map_cons]
    exact congrArg _ (ih hgap hrest)

/-- A character that separates nothing begins a text of its own, or goes in front of the text that
the line begins with. -/
theorem exists_layOut_word {c : Char} (hc : Text.isSeparator c = false) (hlead : IsGap lead)
    (h : Spaced pieces) : ∃ pieces', Spaced pieces' ∧
      String.singleton c ++ layOut lead pieces = layOut "" pieces' := by
  have hfree : NoSeparator (String.singleton c) := by
    intro d hd
    rw [String.toList_singleton, List.mem_singleton] at hd
    rwa [hd]
  have halone : IsText (String.singleton c) := ⟨by simp [← String.toList_inj], hfree⟩
  by_cases hjoin : pieces ≠ [] → lead ≠ ""
  · exact ⟨(String.singleton c, lead) :: pieces, ⟨halone, hlead, hjoin, h⟩,
      by rw [layOut, String.empty_append]⟩
  · obtain ⟨hne, rfl⟩ := by simpa only [Classical.not_imp, not_not] using hjoin
    obtain ⟨⟨text, gap⟩, rest, rfl⟩ := List.exists_cons_of_ne_nil hne
    obtain ⟨htext, hgap, hapart, hrest⟩ := h
    refine ⟨(String.singleton c ++ text, gap) :: rest,
      ⟨htext.behind _ hfree, hgap, hapart, hrest⟩, ?_⟩
    rw [layOut, layOut, String.empty_append, String.empty_append, String.append_assoc]

/-- **Every line is made of texts and gaps.** -/
theorem exists_layOut (raw : String) :
    ∃ lead pieces, IsGap lead ∧ Spaced pieces ∧ raw = layOut lead pieces := by
  rw [← String.ofList_toList (s := raw)]
  induction raw.toList with
  | nil => exact ⟨"", [], by simp [IsGap], trivial, rfl⟩
  | cons c cs ih =>
    obtain ⟨lead, pieces, hlead, hpieces, hcs⟩ := ih
    have hcons : String.ofList (c :: cs) = String.singleton c ++ layOut lead pieces := by
      rw [← hcs, ← String.toList_inj]
      simp
    cases hc : Text.isSeparator c with
    | false =>
      obtain ⟨pieces', hpieces', hlay⟩ := exists_layOut_word hc hlead hpieces
      exact ⟨"", pieces', by simp [IsGap], hpieces', hcons.trans hlay⟩
    | true =>
      refine ⟨String.singleton c ++ lead, pieces, ?_, hpieces, ?_⟩
      · intro d hd
        rw [String.toList_append, String.toList_singleton, List.singleton_append] at hd
        rcases List.mem_cons.mp hd with rfl | hd
        · exact hc
        · exact hlead d hd
      · rw [hcons, layOut_append]

/-! ## tokens -/

/-- **Scanning is exact, and can be undone.** The tokens of a line are its longest runs of
characters that separate nothing, from left to right; each says where it stands, and each such
character stands in one of them. Whatever line is made of texts with gaps between them has these
words. -/
theorem scan_exact :
    (∀ raw : String,
      (∀ t, t ∈ scan raw ↔ IsRun raw t) ∧
      ((scan raw).Pairwise fun t u => t.endColumn < u.column) ∧
      (∀ t ∈ scan raw, IsText t.value ∧ 1 ≤ t.column ∧
        ((Text.unitList raw).drop (t.column - 1).toNat).take (Text.units t.value) =
          Text.unitList t.value) ∧
      (∀ (front back : String) (c : Char), raw = front ++ String.singleton c ++ back →
        Text.isSeparator c = false → ∃! t, t ∈ scan raw ∧
          t.Holds (Text.units front + 1) (Text.units front + Text.charWidth c)) ∧
      ∃ lead pieces, IsGap lead ∧ Spaced pieces ∧ raw = layOut lead pieces ∧
        words raw = pieces.map Prod.fst) ∧
    ∀ lead pieces, IsGap lead → Spaced pieces →
      words (layOut lead pieces) = pieces.map Prod.fst := by
  refine ⟨fun raw => ⟨fun _ => mem_scan_iff, pairwise_scanFrom 1 raw.toList, ?_, ?_, ?_⟩, ?_⟩
  · intro t ht
    exact ⟨isText_of_mem_scanFrom ht, (isRun_of_mem_scan ht).units_eq⟩
  · intro front back c hraw hc
    exact existsUnique_mem_scan hraw hc
  · obtain ⟨lead, pieces, hlead, hpieces, rfl⟩ := exists_layOut raw
    exact ⟨lead, pieces, hlead, hpieces, rfl, words_layOut hlead hpieces⟩
  · intro lead pieces hlead hpieces
    exact words_layOut hlead hpieces

def tabbedPieces : List (String × String) :=
  [("qubes.Gpg", "\t"), ("+😀", "\x0b\x0c "), ("no\u00a0break", "")]

/-- The wide character stands in the columns 14 and 15, and these in the second token. -/
theorem scan_exact_tabbed :
    IsGap "\r " ∧ Spaced tabbedPieces ∧
    layOut "\r " tabbedPieces = "\r qubes.Gpg\t+" ++ String.singleton '😀' ++
      "\x0b\x0c no\u00a0break" ∧
    words (layOut "\r " tabbedPieces) = ["qubes.Gpg", "+😀", "no\u00a0break"] ∧
    (∃! t, t ∈ scan (layOut "\r " tabbedPieces) ∧ t.Holds 14 15) ∧
    (⟨"+😀", 13⟩ : Token) ∈ scan (layOut "\r " tabbedPieces) ∧
    ((Text.unitList (layOut "\r " tabbedPieces)).drop 12).take 3 = Text.unitList "+😀" := by
  have hlead : IsGap "\r " := by decide
  have hpieces : Spaced tabbedPieces := by decide
  have hraw : layOut "\r " tabbedPieces = "\r qubes.Gpg\t+" ++ String.singleton '😀' ++
      "\x0b\x0c no\u00a0break" := by
    decide +kernel
  have hsecond : (⟨"+😀", 13⟩ : Token) ∈ scan (layOut "\r " tabbedPieces) := by decide +kernel
  obtain ⟨-, -, htokens, hcharacters, -⟩ := scan_exact.1 (layOut "\r " tabbedPieces)
  exact ⟨hlead, hpieces, hraw, scan_exact.2 _ _ hlead hpieces,
    hcharacters _ _ _ hraw (by decide), hsecond, (htokens _ hsecond).2.2⟩

end Token

end QubePolicy
