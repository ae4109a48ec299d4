import QubePolicy.Proofs.Text.Order
import QubePolicy.Text.Utf8

/-!
# Text written to bytes and read back

* `decodeFrom_begin`, `decodeFrom_more`, `decodeFrom_last`   the first byte of a character, one that
                             goes on with it, and the one that ends it;
* `decode_encode`            a text is read back from its bytes;
* `decode_append_of_lineFeed`  what ends with a line feed is read apart from what is behind it.
-/

namespace QubePolicy.Text.Utf8

/-! ## bytes -/

theorem toNat_toUInt8 {n : Nat} (h : n ≤ 0xFF) : n.toUInt8.toNat = n :=
  UInt8.toNat_ofNat_of_lt' (Nat.lt_succ_of_le h)

variable {n bits owed least greatest : Nat}

theorem decodeFrom_begin (hn : n ≤ 0xFF) {cs : List Char} {next : Option Partial}
    (h : begin n = (cs, next)) (bs : List UInt8) :
    decodeFrom none (n.toUInt8 :: bs) = cs ++ decodeFrom next bs := by
  rw [decodeFrom, toNat_toUInt8 hn, h]

theorem decodeFrom_more (hn : n ≤ 0xFF) (hrange : least ≤ n ∧ n ≤ greatest) (howed : 1 < owed)
    (bs : List UInt8) : decodeFrom (some ⟨bits, owed, least, greatest⟩) (n.toUInt8 :: bs) =
      decodeFrom (some ⟨bits * 0x40 + (n - 0x80), owed - 1, 0x80, 0xBF⟩) bs := by
  rw [decodeFrom, toNat_toUInt8 hn, Partial.feed, if_pos (by simpa using hrange)]
  simp only [if_neg (Nat.not_le.mpr howed), List.nil_append]

theorem decodeFrom_last (hn : n ≤ 0xFF) (hrange : least ≤ n ∧ n ≤ greatest) (bs : List UInt8) :
    decodeFrom (some ⟨bits, 1, least, greatest⟩) (n.toUInt8 :: bs) =
      Char.ofNat (bits * 0x40 + (n - 0x80)) :: decodeFrom none bs := by
  rw [decodeFrom, toNat_toUInt8 hn, Partial.feed, if_pos (by simpa using hrange)]
  rfl

/-! ## first bytes -/

theorem begin_one (h : n < 0x80) : begin n = ([Char.ofNat n], none) := if_pos h

theorem begin_two : ∀ k < 0x20, 2 ≤ k → begin (0xC0 + k) = ([], some ⟨k, 1, 0x80, 0xBF⟩) := by
  decide

/-- The second byte of three leaves out the shorter spellings and the surrogates. -/
theorem begin_three : ∀ k < 0x10, begin (0xE0 + k) =
    ([], some ⟨k, 2, if k = 0 then 0xA0 else 0x80, if k = 0xD then 0x9F else 0xBF⟩) := by
  decide

/-- The second byte of four leaves out the shorter spellings and what is no character. -/
theorem begin_four : ∀ k < 5, begin (0xF0 + k) =
    ([], some ⟨k, 3, if k = 0 then 0x90 else 0x80, if k = 4 then 0x8F else 0xBF⟩) := by
  decide

/-! ## characters -/

variable {c : Char} (bs : List UInt8)

theorem decodeFrom_one (h : c.toNat < 0x80) :
    decodeFrom none (encodeChar c ++ bs) = c :: decodeFrom none bs := by
  rw [encodeChar, if_pos h, List.singleton_append, decodeFrom_begin (by omega) (begin_one h),
    Char.ofNat_toNat, List.singleton_append]

theorem decodeFrom_two (hlow : ¬c.toNat < 0x80) (h : c.toNat < 0x800) :
    decodeFrom none (encodeChar c ++ bs) = c :: decodeFrom none bs := by
  have hbits : c.toNat / 0x40 * 0x40 + (0x80 + c.toNat % 0x40 - 0x80) = c.toNat := by omega
  rw [encodeChar, if_neg hlow, if_pos h]
  simp only [List.cons_append, List.nil_append]
  rw [decodeFrom_begin (by omega) (begin_two _ (by omega) (by omega)),
    decodeFrom_last (by omega) (by omega), hbits, Char.ofNat_toNat]
  rfl

theorem decodeFrom_three (hlow : ¬c.toNat < 0x800) (h : c.toNat < 0x10000) :
    decodeFrom none (encodeChar c ++ bs) = c :: decodeFrom none bs := by
  have hvalid := not_surrogate c
  have hsecond : (if c.toNat / 0x1000 = 0 then 0xA0 else 0x80) ≤ 0x80 + c.toNat / 0x40 % 0x40 ∧
      0x80 + c.toNat / 0x40 % 0x40 ≤ (if c.toNat / 0x1000 = 0xD then 0x9F else 0xBF) := by
    constructor <;> split <;> omega
  have hbits : (c.toNat / 0x1000 * 0x40 + (0x80 + c.toNat / 0x40 % 0x40 - 0x80)) * 0x40 +
      (0x80 + c.toNat % 0x40 - 0x80) = c.toNat := by omega
  rw [encodeChar, if_neg (by omega), if_neg hlow, if_pos h]
  simp only [List.cons_append, List.nil_append]
  rw [decodeFrom_begin (by omega) (begin_three _ (by omega)), List.nil_append,
    decodeFrom_more (by omega) hsecond (by decide),
    decodeFrom_last (by omega) (by omega), hbits,
    Char.ofNat_toNat]

theorem decodeFrom_four (hlow : ¬c.toNat < 0x10000) :
    decodeFrom none (encodeChar c ++ bs) = c :: decodeFrom none bs := by
  have hvalid := not_surrogate c
  have hsecond : (if c.toNat / 0x40000 = 0 then 0x90 else 0x80) ≤
        0x80 + c.toNat / 0x1000 % 0x40 ∧
      0x80 + c.toNat / 0x1000 % 0x40 ≤ (if c.toNat / 0x40000 = 4 then 0x8F else 0xBF) := by
    constructor <;> split <;> omega
  have hbits : ((c.toNat / 0x40000 * 0x40 + (0x80 + c.toNat / 0x1000 % 0x40 - 0x80)) * 0x40 +
      (0x80 + c.toNat / 0x40 % 0x40 - 0x80)) * 0x40 + (0x80 + c.toNat % 0x40 - 0x80) =
      c.toNat := by omega
  rw [encodeChar, if_neg (by omega), if_neg (by omega), if_neg hlow]
  simp only [List.cons_append, List.nil_append]
  rw [decodeFrom_begin (by omega) (begin_four _ (by omega)), List.nil_append,
    decodeFrom_more (by omega) hsecond (by decide),
    decodeFrom_more (by omega) (by omega) (by decide),
    decodeFrom_last (by omega) (by omega), hbits,
    Char.ofNat_toNat]

theorem decodeFrom_encodeChar (c : Char) :
    decodeFrom none (encodeChar c ++ bs) = c :: decodeFrom none bs := by
  by_cases hone : c.toNat < 0x80
  · exact decodeFrom_one bs hone
  by_cases htwo : c.toNat < 0x800
  · exact decodeFrom_two bs hone htwo
  by_cases hthree : c.toNat < 0x10000
  · exact decodeFrom_three bs htwo hthree
  · exact decodeFrom_four bs hthree

/-- **A text is read back from its bytes.** -/
theorem decode_encode (s : String) : decode (encode s) = s := by
  have hchars (cs : List Char) : decodeFrom none (cs.flatMap encodeChar) = cs := by
    induction cs with
    | nil => rfl
    | cons c cs ih => rw [List.flatMap_cons, decodeFrom_encodeChar, ih]
  rw [decode, encode, hchars, String.ofList_toList]

/-! ## line feeds -/

theorem least_of_begin {b : Nat} {p : Partial} (h : (begin b).2 = some p) : 10 < p.least := by
  unfold begin at h
  repeat' split at h
  all_goals first
    | exact absurd h (Option.some_ne_none p).symm
    | (rw [← Option.some.inj h]; simp)

theorem least_of_feed {p q : Partial} {b : Nat} (h : (p.feed b).2 = some q) : 10 < q.least := by
  unfold Partial.feed at h
  simp only at h
  split at h
  · split at h
    · exact absurd h (Option.some_ne_none q).symm
    · rw [← Option.some.inj h]
      simp
  · exact least_of_begin h

/-- What is before a line feed and what is behind it are read apart. -/
theorem exists_decodeFrom_lineFeed (bs : List UInt8) (pending : Option Partial)
    (h : ∀ p, pending = some p → 10 < p.least) : ∃ cs, ∀ rest,
      decodeFrom pending (bs ++ 10 :: rest) = cs ++ '\n' :: decodeFrom none rest := by
  -- byte by byte, with whatever character is open: a line feed ends it
  induction bs generalizing pending with
  | nil =>
    cases pending with
    | none => exact ⟨[], fun _ => rfl⟩
    | some p =>
      have hless : ¬p.least ≤ 10 := Nat.not_le.mpr (h p rfl)
      have hfeed : p.feed 10 = ([replacement, '\n'], none) := by
        unfold Partial.feed
        simp only [decide_eq_false hless, Bool.false_and, Bool.false_eq_true, if_false]
        rfl
      refine ⟨[replacement], fun rest => ?_⟩
      show (p.feed 10).1 ++ decodeFrom (p.feed 10).2 rest = _
      rw [hfeed]
      rfl
  | cons b bs ih =>
    cases pending with
    | none =>
      obtain ⟨cs, hcs⟩ := ih (begin b.toNat).2 fun _ => least_of_begin
      refine ⟨(begin b.toNat).1 ++ cs, fun rest => ?_⟩
      rw [List.append_assoc, ← hcs rest]
      rfl
    | some p =>
      obtain ⟨cs, hcs⟩ := ih (p.feed b.toNat).2 fun _ => least_of_feed
      refine ⟨(p.feed b.toNat).1 ++ cs, fun rest => ?_⟩
      rw [List.append_assoc, ← hcs rest]
      rfl

/-- **Bytes that end with a line feed are read apart from what is behind them.** -/
theorem decode_append_of_lineFeed {bs : List UInt8} (h : bs.getLast? = some 10) :
    (∃ text, decode bs = text ++ "\n") ∧ ∀ rest, decode (bs ++ rest) = decode bs ++ decode rest := by
  obtain ⟨before, rfl⟩ := List.getLast?_eq_some_iff.mp h
  obtain ⟨cs, hcs⟩ := exists_decodeFrom_lineFeed before none fun p hp => by cases hp
  have hbefore : decode (before ++ [10]) = String.ofList cs ++ "\n" := by
    rw [decode, hcs, ← String.toList_inj]
    simp [decodeFrom]
  refine ⟨⟨_, hbefore⟩, fun rest => ?_⟩
  rw [hbefore, List.append_assoc, List.singleton_append, decode, decode, hcs, ← String.toList_inj]
  simp

end QubePolicy.Text.Utf8
