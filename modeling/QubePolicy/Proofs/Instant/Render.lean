import QubePolicy.Instant
import Mathlib.Algebra.Group.Nat.Defs
import Mathlib.Data.List.Basic

/-!
# The text of an instant

* `daysOf_dateOf`     the date of a day tells the day;
* `padded_inj`, `renderYear_inj`   the digits of a number and of a year tell it;
* `Instant.spelled`   the text of an instant, with any marks in the time of day;
* `map_spelled`       the marks in the time of day replaced by others;
* `spelled_inj`       it tells the instant.
-/

namespace QubePolicy.Instant

/-! ## the calendar -/

/-- A day of a span of 400 years, but for the last, by centuries and spans of four years. -/
theorem exists_century {n : Nat} (h : n < 146096) :
    ∃ century quad rest, n = 36524 * century + 1461 * quad + rest ∧ century ≤ 3 ∧
      1461 * quad + rest < 36524 ∧ rest < 1461 := by
  refine ⟨n / 36524, n % 36524 / 1461, n % 36524 % 1461, ?_, ?_, ?_, ?_⟩ <;> omega

theorem yearOfSpan_spec {n year : Nat} (h : n < 146097)
    (hyear : year = (n - n / 1460 + n / 36524 - n / 146096) / 365) :
    year < 400 ∧ 365 * year + year / 4 - year / 100 ≤ n ∧
      n < 365 * year + year / 4 - year / 100 + 366 := by
  by_cases hlast : n = 146096
  · rw [hlast] at hyear
    have hyear : year = 399 := by omega
    rw [hyear]
    omega
  obtain ⟨century, quad, rest, hn, hcentury, hquad, hrest⟩ := exists_century (n := n) (by omega)
  have hcenturies : n / 36524 = century := by omega
  have hspan : n / 146096 = 0 := by omega
  have hquads : n / 1460 = 25 * century + quad + (24 * century + quad + rest) / 1460 := by omega
  have hdays : n - n / 1460 + n / 36524 - n / 146096 = 365 * (100 * century + 4 * quad) +
      (rest - (24 * century + quad + rest) / 1460) := by omega
  have hyears : year = 100 * century + 4 * quad +
      (rest - (24 * century + quad + rest) / 1460) / 365 := by omega
  have hrests : (rest - (24 * century + quad + rest) / 1460) / 365 ≤ 3 := by omega
  have hfourth : year / 4 = 25 * century + quad := by omega
  have hhundredth : year / 100 = century := by omega
  omega

/-- The month counted from March and the day, back to the day of the year. -/
theorem month_spec {day month : Nat} (h : day < 366) (hmonth : month = (5 * day + 2) / 153) :
    month ≤ 11 ∧ (153 * month + 2) / 5 ≤ day ∧ day < (153 * month + 2) / 5 + 31 := by
  omega

/-- **The date of a day tells the day.** -/
theorem daysOf_dateOf (days : Int) :
    daysOf (dateOf days).1 (dateOf days).2.1 (dateOf days).2.2 = days := by
  unfold dateOf
  simp only
  generalize hspan : (days + 719468) / 146097 = span
  generalize hn : (days + 719468 - span * 146097).toNat = n
  have hn' : (n : Int) = days + 719468 - span * 146097 := by omega
  obtain ⟨hyear, hle, hlt⟩ := yearOfSpan_spec (n := n) (by omega) rfl
  generalize (n - n / 1460 + n / 36524 - n / 146096) / 365 = year at hyear hle hlt ⊢
  generalize hday : n - (365 * year + year / 4 - year / 100) = day
  obtain ⟨hmonth, hfirst, -⟩ := @month_spec day _ (by omega) rfl
  generalize (5 * day + 2) / 153 = march at hmonth hfirst ⊢
  generalize hm : (if march < 10 then march + 3 else march - 9) = month
  have hback : (month + 9) % 12 = march := by
    rw [← hm]
    split <;> omega
  have hspans : ((year : Int) + span * 400) / 400 = span := by omega
  have hyears : (if month ≤ 2 then
      (if month ≤ 2 then (year : Int) + span * 400 + 1 else year + span * 400) - 1
      else (if month ≤ 2 then (year : Int) + span * 400 + 1 else year + span * 400)) =
      year + span * 400 := by
    split <;> omega
  unfold daysOf
  simp only
  rw [hyears, hback, hspans, Int.add_sub_cancel]
  omega

theorem dateOf_inj {days days' : Int} (h : dateOf days = dateOf days') : days = days' := by
  rw [← daysOf_dateOf days, h, daysOf_dateOf]

theorem dateOf_lt (days : Int) : (dateOf days).2.1 < 100 ∧ (dateOf days).2.2 < 100 := by
  unfold dateOf
  simp only
  generalize hn : (days + 719468 - (days + 719468) / 146097 * 146097).toNat = n
  obtain ⟨-, hle, hlt⟩ := yearOfSpan_spec (n := n) (by omega) rfl
  generalize (n - n / 1460 + n / 36524 - n / 146096) / 365 = year at hle hlt ⊢
  generalize hday : n - (365 * year + year / 4 - year / 100) = day
  obtain ⟨hmonth, hfirst, hlast⟩ := @month_spec day _ (by omega) rfl
  constructor
  · split <;> omega
  · omega

/-! ## digits -/

theorem toList_padded (count n : Nat) : (padded count n).toList =
    List.replicate (count - (Nat.toDigits 10 n).length) '0' ++ Nat.toDigits 10 n := by
  rw [padded, String.toList_ofList]

theorem padded_inj {count n m : Nat} (h : padded count n = padded count m) : n = m := by
  have hvalue (k : Nat) : Nat.ofDigitChars 10 (padded count k).toList 0 = k := by
    rw [toList_padded, Nat.ofDigitChars_append, Nat.ofDigitChars_replicate_zero, Nat.mul_zero,
      Nat.ofDigitChars_ten_toDigits]
  rw [← hvalue n, h, hvalue]

theorem length_padded {count n : Nat} (hcount : 0 < count) (h : n < 10 ^ count) :
    (padded count n).toList.length = count := by
  have hle := (Nat.length_toDigits_le_iff (by decide : 1 < 10) hcount).mpr h
  rw [toList_padded, List.length_append, List.length_replicate]
  omega

theorem isDigit_of_mem_padded {count n : Nat} {c : Char} (h : c ∈ (padded count n).toList) :
    c.isDigit = true := by
  rw [toList_padded] at h
  rcases List.mem_append.mp h with h | h
  · rw [(List.mem_replicate.mp h).2]
    rfl
  · exact Nat.isDigit_of_mem_toDigits (by decide) (by decide) h

/-! ## years -/

theorem renderYear_eq (year : Int) :
    (0 ≤ year ∧ renderYear year = padded 4 year.toNat) ∨
      ∃ sign, (sign = '-' ∧ year < 0 ∨ sign = '+' ∧ 0 ≤ year) ∧
        (renderYear year).toList = sign :: (padded 6 year.natAbs).toList := by
  unfold renderYear
  split
  · next hyear =>
    simp only [Bool.and_eq_true, decide_eq_true_eq] at hyear
    exact .inl ⟨hyear.1, rfl⟩
  · by_cases hneg : year < 0
    · rw [if_pos hneg, String.toList_append]
      exact .inr ⟨'-', .inl ⟨rfl, hneg⟩, rfl⟩
    · rw [if_neg hneg, String.toList_append]
      exact .inr ⟨'+', .inr ⟨rfl, by omega⟩, rfl⟩

theorem renderYear_ne {y y' : Int} {sign : Char} {rest : List Char}
    (h : renderYear y = padded 4 y.toNat) (hsign : sign = '-' ∧ y' < 0 ∨ sign = '+' ∧ 0 ≤ y')
    (h' : (renderYear y').toList = sign :: rest) : renderYear y ≠ renderYear y' := by
  intro hsame
  rw [← hsame, h] at h'
  have hdigit : sign.isDigit = true := isDigit_of_mem_padded (h' ▸ List.mem_cons_self)
  rcases hsign with ⟨rfl, -⟩ | ⟨rfl, -⟩ <;> cases hdigit

theorem renderYear_inj {y y' : Int} (h : renderYear y = renderYear y') : y = y' := by
  rcases renderYear_eq y with ⟨hy, htext⟩ | ⟨sign, hsign, htext⟩
  · rcases renderYear_eq y' with ⟨hy', htext'⟩ | ⟨sign', hsign', htext'⟩
    · have hnat : y.toNat = y'.toNat := padded_inj (htext.symm.trans (h.trans htext'))
      omega
    · exact absurd h (renderYear_ne htext hsign' htext')
  · rcases renderYear_eq y' with ⟨hy', htext'⟩ | ⟨sign', hsign', htext'⟩
    · exact absurd h.symm (renderYear_ne htext' hsign htext)
    · rw [h, htext'] at htext
      injection htext with hsame hdigits
      have hnat : y'.natAbs = y.natAbs := padded_inj (String.toList_inj.mp hdigits)
      rcases hsign with ⟨rfl, hneg⟩ | ⟨rfl, hneg⟩
      · rcases hsign' with ⟨-, hneg'⟩ | ⟨rfl, -⟩
        · omega
        · cases hsame
      · rcases hsign' with ⟨rfl, -⟩ | ⟨-, hneg'⟩
        · cases hsame
        · omega

/-! ## texts -/

def clock (t : Instant) : Nat := (t.milliseconds - t.milliseconds / dayLength * dayLength).toNat

theorem clock_spec (t : Instant) : t.clock < 86400000 ∧
    t.milliseconds = t.milliseconds / dayLength * dayLength + t.clock := by
  unfold clock dayLength
  omega

def behindYear (colon point : Char) (month day clock : Nat) : List Char :=
  '-' :: ((padded 2 month).toList ++ '-' :: ((padded 2 day).toList ++
    'T' :: ((padded 2 (clock / 3600000)).toList ++
      colon :: ((padded 2 (clock / 60000 % 60)).toList ++
        colon :: ((padded 2 (clock / 1000 % 60)).toList ++
          point :: ((padded 3 (clock % 1000)).toList ++ ['Z']))))))

/-- The text of an instant, with any marks in the time of day. -/
def spelled (colon point : Char) (t : Instant) : List Char :=
  let date := dateOf (t.milliseconds / dayLength)
  (renderYear date.1).toList ++ behindYear colon point date.2.1 date.2.2 t.clock

theorem toList_render (t : Instant) : t.render.toList = t.spelled ':' '.' := by
  unfold render spelled behindYear clock
  simp [toString]

theorem map_spelled {f : Char → Char} (hdigit : ∀ c, c.isDigit = true → f c = c)
    (hmark : ∀ c ∈ ['-', '+', 'T', 'Z'], f c = c) (colon point : Char) (t : Instant) :
    (t.spelled colon point).map f = t.spelled (f colon) (f point) := by
  have hpadded (count n : Nat) : (padded count n).toList.map f = (padded count n).toList :=
    (List.map_congr_left fun c hc => hdigit c (isDigit_of_mem_padded hc)).trans (List.map_id' _)
  have hyear (year : Int) : (renderYear year).toList.map f = (renderYear year).toList := by
    rcases renderYear_eq year with ⟨-, htext⟩ | ⟨sign, hsign, htext⟩
    · rw [htext, hpadded]
    · have hsign' : sign ∈ ['-', '+', 'T', 'Z'] := by
        rcases hsign with ⟨rfl, -⟩ | ⟨rfl, -⟩ <;> decide
      rw [htext, List.map_cons, hmark sign hsign', hpadded]
  unfold spelled behindYear
  simp only [List.map_append, List.map_cons, List.map_nil, hpadded, hyear,
    hmark '-' (by decide), hmark 'T' (by decide), hmark 'Z' (by decide)]

variable {month day clock month' day' clock' : Nat} {colon point : Char}

theorem not_mem_spelled {c : Char} (hdigit : c.isDigit = false)
    (hmark : c ∉ ['-', '+', 'T', 'Z', colon, point]) {t : Instant} :
    c ∉ t.spelled colon point := by
  let f (d : Char) : Char := if d = c then 'T' else d
  have hf : ∀ d, d ≠ c → f d = d := fun d hd => if_neg hd
  have hmap : (t.spelled colon point).map f = (t.spelled colon point).map id := by
    rw [map_spelled (fun d hd => hf d fun h => ?_) (fun d hd => hf d fun h => hmark ?_), hf colon,
      hf point, List.map_id]
    · exact fun h => hmark (by simp [h])
    · exact fun h => hmark (by simp [h])
    · rw [h, hdigit] at hd
      cases hd
    · rw [← h]
      exact List.mem_append_left [colon, point] hd
  intro hc
  have hsame : f c = c := List.map_inj_left.mp hmap c hc
  have hletter : c = 'T' := hsame.symm.trans (if_pos rfl)
  rw [hletter] at hmark
  exact hmark (by simp)

theorem length_behindYear (hmonth : month < 100) (hday : day < 100) (hclock : clock < 86400000) :
    (behindYear colon point month day clock).length = 20 := by
  have htwo {n : Nat} (hn : n < 100) : (padded 2 n).toList.length = 2 :=
    length_padded (by decide) hn
  have hthree : (padded 3 (clock % 1000)).toList.length = 3 :=
    length_padded (by decide) (by omega)
  unfold behindYear
  simp only [List.length_cons, List.length_append, List.length_nil]
  rw [htwo hmonth, htwo hday, htwo (by omega), htwo (by omega), htwo (by omega), hthree]

theorem padded_append_inj {count n m : Nat} (hcount : 0 < count) (hn : n < 10 ^ count)
    (hm : m < 10 ^ count) {rest rest' : List Char} {mark : Char}
    (h : (padded count n).toList ++ mark :: rest = (padded count m).toList ++ mark :: rest') :
    n = m ∧ rest = rest' := by
  obtain ⟨hdigits, hrest⟩ :=
    List.append_inj h (by rw [length_padded hcount hn, length_padded hcount hm])
  injection hrest with _ hrest
  exact ⟨padded_inj (String.toList_inj.mp hdigits), hrest⟩

theorem behindYear_inj (hmonth : month < 100) (hday : day < 100) (hclock : clock < 86400000)
    (hmonth' : month' < 100) (hday' : day' < 100) (hclock' : clock' < 86400000)
    (h : behindYear colon point month day clock = behindYear colon point month' day' clock') :
    month = month' ∧ day = day' ∧ clock = clock' := by
  unfold behindYear at h
  injection h with _ h
  obtain ⟨hmonths, h⟩ := padded_append_inj (by decide) hmonth hmonth' h
  obtain ⟨hdays, h⟩ := padded_append_inj (by decide) hday hday' h
  obtain ⟨hhours, h⟩ := padded_append_inj (by decide) (by omega) (by omega) h
  obtain ⟨hminutes, h⟩ := padded_append_inj (by decide) (by omega) (by omega) h
  obtain ⟨hseconds, h⟩ := padded_append_inj (by decide) (by omega) (by omega) h
  obtain ⟨hmilliseconds, -⟩ := padded_append_inj (by decide) (by omega) (by omega) h
  exact ⟨hmonths, hdays, by omega⟩

/-- **The text of an instant tells the instant**, whatever the marks in the time of day. -/
theorem spelled_inj {t t' : Instant} (h : t.spelled colon point = t'.spelled colon point) :
    t = t' := by
  obtain ⟨hclock, htime⟩ := t.clock_spec
  obtain ⟨hclock', htime'⟩ := t'.clock_spec
  obtain ⟨hmonth, hday⟩ := dateOf_lt (t.milliseconds / dayLength)
  obtain ⟨hmonth', hday'⟩ := dateOf_lt (t'.milliseconds / dayLength)
  obtain ⟨hyear, hbehind⟩ := List.append_inj' h (by
    rw [length_behindYear hmonth hday hclock, length_behindYear hmonth' hday' hclock'])
  obtain ⟨hmonths, hdays, hclocks⟩ :=
    behindYear_inj hmonth hday hclock hmonth' hday' hclock' hbehind
  have hdate : dateOf (t.milliseconds / dayLength) = dateOf (t'.milliseconds / dayLength) :=
    Prod.ext (renderYear_inj (String.toList_inj.mp hyear)) (Prod.ext hmonths hdays)
  have hsame : t.milliseconds = t'.milliseconds := by
    rw [htime, htime', dateOf_inj hdate, hclocks]
  cases t
  cases t'
  exact congrArg Instant.mk hsame

end QubePolicy.Instant
