import QubePolicy.Json.Reader
import QubePolicy.Proofs.Text.Order

/-!
# JSON texts are read back

The text of a value is read as that value, if its numbers are whole and small enough to be kept and
no object has two members of one name.

* `Json.Reader.string_renderString`   a string is read back as its units;
* `Json.Reader.number_renderNumber`   a whole number below `2 ^ 53` is read back;
* `Json.Readable`                     the values that are read back;
* `Json.Reader.value_renderChars`     one is read in front of any text that does not go on with it;
* `Json.parse?_render`                and as a whole text.
-/

namespace QubePolicy.Json.Reader

variable {cs rest : List Char} {fuel : Nat}

/-! ## blanks -/

theorem isSpace_of_isDigit {c : Char} (h : c.isDigit = true) : isSpace c = false := by
  cases hspace : isSpace c with
  | false => rfl
  | true =>
    simp only [isSpace, Bool.or_eq_true, beq_iff_eq] at hspace
    rcases hspace with ((rfl | rfl) | rfl) | rfl <;> cases h

theorem skipSpace_cons {c : Char} (h : isSpace c = false) (cs : List Char) :
    skipSpace (c :: cs) = c :: cs :=
  List.dropWhile_cons_of_neg (by simp [h])

/-! ## strings -/

/-- The three ways in which a character is written: behind a backslash, as a unit in hexadecimal
digits, or as it is. -/
theorem escape_cases (c : Char) :
    (∃ d u, d ≠ 'u' ∧ escaped? d = some u ∧ Text.unitsOf c = [u] ∧ escape c = ['\\', d]) ∨
    (c.toNat < 0x20 ∧ escape c =
      ['\\', 'u', '0', '0', Nat.digitChar (c.toNat / 16), Nat.digitChar (c.toNat % 16)]) ∨
    (¬c.toNat < 0x20 ∧ c ≠ '"' ∧ c ≠ '\\' ∧ escape c = [c]) := by
  by_cases hshort : c ∈ ['"', '\\', '\x08', '\x0c', '\n', '\r', '\t']
  · left
    simp only [List.mem_cons, List.not_mem_nil, or_false] at hshort
    rcases hshort with rfl | rfl | rfl | rfl | rfl | rfl | rfl <;>
      exact ⟨_, _, by decide, rfl, rfl, rfl⟩
  · simp only [List.mem_cons, List.not_mem_nil, or_false, not_or] at hshort
    have hescape : escape c = if c.toNat < 0x20 then
        ['\\', 'u', '0', '0', Nat.digitChar (c.toNat / 16), Nat.digitChar (c.toNat % 16)]
        else [c] := by
      simp [escape, hshort]
    by_cases hcontrol : c.toNat < 0x20
    · exact .inr (.inl ⟨hcontrol, by rw [hescape, if_pos hcontrol]⟩)
    · exact .inr (.inr ⟨hcontrol, hshort.1, hshort.2.1, by rw [hescape, if_neg hcontrol]⟩)

theorem hexUnit?_digitChar : ∀ n < 0x20,
    hexUnit? '0' '0' (Nat.digitChar (n / 16)) (Nat.digitChar (n % 16)) = some n := by
  decide

/-- **A character is read back as its units.** -/
theorem string_escape (c : Char) (cs : List Char) : string (escape c ++ cs) =
    (string cs).map fun (units, rest) => (Text.unitsOf c ++ units, rest) := by
  rcases escape_cases c with ⟨d, u, hd, hu, hunits, hescape⟩ | ⟨hcontrol, hescape⟩ |
      ⟨hcontrol, hquote, hbackslash, hescape⟩
  · rw [hescape, hunits]
    show string ('\\' :: d :: cs) = _
    rw [string]
    · rw [hu]
      cases string cs <;> rfl
    · exact fun _ _ _ _ _ h _ => hd h
  · rw [hescape, Text.unitsOf, if_pos (Nat.lt_trans hcontrol (by decide))]
    simp only [List.cons_append, List.nil_append, string, hexUnit?_digitChar _ hcontrol]
    cases string cs <;> rfl
  · rw [hescape, List.singleton_append, string, if_neg (by simp [hcontrol, hbackslash])]
    · cases string cs <;> rfl
    · exact hquote
    · exact fun _ _ _ _ _ h _ => hbackslash h
    · exact fun _ _ h _ => hbackslash h

theorem string_escaped (s : List Char) (rest : List Char) :
    string (s.flatMap escape ++ '"' :: rest) = some (s.flatMap Text.unitsOf, rest) := by
  induction s with
  | nil => rfl
  | cons c s ih =>
    rw [List.flatMap_cons, List.append_assoc, string_escape, ih]
    rfl

/-- **A string is read back.** -/
theorem text_escaped (s : String) (rest : List Char) :
    text (s.toList.flatMap escape ++ '"' :: rest) = some (s, rest) := by
  rw [text, string_escaped, Option.map_some]
  show some (String.ofList (Text.ofUnits (Text.unitList s)), rest) = _
  rw [Text.ofUnits_unitList, String.ofList_toList]

/-! ## numbers -/

def Stops (rest : List Char) : Prop :=
  ∀ c, rest.head? = some c → c.isDigit = false ∧ c ≠ '.' ∧ c ≠ 'e' ∧ c ≠ 'E'

theorem stops_nil : Stops [] := nofun

theorem stops_cons {c : Char} (hdigit : c.isDigit = false) (h : c ∉ ['.', 'e', 'E'])
    (cs : List Char) : Stops (c :: cs) := by
  rintro d ⟨⟩
  simp only [List.mem_cons, List.not_mem_nil, or_false, not_or] at h
  exact ⟨hdigit, h⟩

theorem span_of_stops {ds : List Char} (hds : ∀ d ∈ ds, d.isDigit = true) (hrest : Stops rest) :
    (ds ++ rest).takeWhile isDigit = ds ∧ (ds ++ rest).dropWhile isDigit = rest := by
  have hds' : ∀ d ∈ ds, isDigit d = true := hds
  rw [List.takeWhile_append_of_pos hds', List.dropWhile_append_of_pos hds']
  cases rest with
  | nil => simp
  | cons c cs =>
    have hc : isDigit c = false := (hrest c rfl).1
    simp [hc]

theorem fraction_of_stops (hrest : Stops rest) : fraction rest = some ([], rest) := by
  unfold fraction
  split
  · exact absurd rfl (hrest '.' rfl).2.1
  · rfl

theorem exponent_of_stops (hrest : Stops rest) : exponent rest = some (0, rest) := by
  cases rest with
  | nil => rfl
  | cons c cs =>
    obtain ⟨-, -, he, hE⟩ := hrest c rfl
    simp [exponent, he, hE]

theorem head?_toDigits_ne {n : Nat} (hn : 0 < n) : (Nat.toDigits 10 n).head? ≠ some '0' := by
  induction n using Nat.strong_induction_on with
  | _ n ih =>
    rw [Nat.toDigits_eq_if (by decide)]
    split
    · simp
      omega
    · rw [List.head?_append_of_ne_nil _ Nat.toDigits_ne_nil]
      exact ih (n / 10) (by omega) (by omega)

theorem exists_toDigits (n : Nat) : ∃ d ds, Nat.toDigits 10 n = d :: ds ∧ d.isDigit = true := by
  obtain ⟨d, ds, hds⟩ := List.exists_cons_of_ne_nil (Nat.toDigits_ne_nil (n := n) (b := 10))
  exact ⟨d, ds, hds,
    Nat.isDigit_of_mem_toDigits (by decide) (by decide) (hds ▸ List.mem_cons_self)⟩

theorem wholePart_toDigits (n : Nat) (hrest : Stops rest) :
    wholePart (Nat.toDigits 10 n ++ rest) = some (Nat.toDigits 10 n, rest) := by
  by_cases hn : n = 0
  · subst hn
    rfl
  · have hhead := head?_toDigits_ne (Nat.pos_of_ne_zero hn)
    have hdigits : ∀ d ∈ Nat.toDigits 10 n, d.isDigit = true := fun d hd =>
      Nat.isDigit_of_mem_toDigits (by decide) (by decide) hd
    obtain ⟨d, ds, hds, -⟩ := exists_toDigits n
    rw [hds] at hhead hdigits ⊢
    obtain ⟨htake, hdrop⟩ := span_of_stops (fun c hc => hdigits c (List.mem_cons_of_mem d hc)) hrest
    rw [List.cons_append, wholePart, if_neg (fun h => hhead (congrArg some h)),
      if_pos (hdigits d List.mem_cons_self), htake, hdrop]

theorem unsigned_toDigits (negative : Bool) {n : Nat} (hn : n < Binary64.mantissaBound)
    (hrest : Stops rest) : unsigned negative (Nat.toDigits 10 n ++ rest) =
      some (.whole (if negative then -n else n), rest) := by
  have hvalue : Number.ofDecimal negative n 0 = .whole (if negative then -n else n) := by
    unfold Number.ofDecimal
    by_cases hzero : n = 0
    · subst hzero
      cases negative <;> rfl
    · rw [if_neg hzero, if_pos (by simp [hn])]
  simp [unsigned, wholePart_toDigits n hrest, fraction_of_stops hrest, exponent_of_stops hrest,
    digitsValue, hvalue]

theorem renderNumber_whole {n : Int} (hn : n.natAbs < Binary64.mantissaBound) :
    renderNumber (.whole n) = (if n < 0 then ['-'] else []) ++ Nat.toDigits 10 n.natAbs := by
  have hsmall : n.natAbs < Number.tenTo 21 := Nat.lt_trans hn (by decide)
  show Number.renderChars (.whole n) = _
  rw [Number.renderChars, if_pos hsmall]
  rfl

theorem exists_renderNumber {n : Int} (hn : n.natAbs < Binary64.mantissaBound) :
    ∃ c cs, renderNumber (.whole n) = c :: cs ∧ (c = '-' ∨ c.isDigit = true) := by
  obtain ⟨d, ds, hds, hdigit⟩ := exists_toDigits n.natAbs
  rw [renderNumber_whole hn, hds]
  by_cases hneg : n < 0
  · exact ⟨_, _, by rw [if_pos hneg]; rfl, .inl rfl⟩
  · exact ⟨_, _, by rw [if_neg hneg]; rfl, .inr hdigit⟩

/-- **A whole number below `2 ^ 53` is read back.** -/
theorem number_renderNumber {n : Int} (hn : n.natAbs < Binary64.mantissaBound)
    (hrest : Stops rest) : number (renderNumber (.whole n) ++ rest) = some (.whole n, rest) := by
  rw [renderNumber_whole hn]
  by_cases hneg : n < 0
  · have hn' : -(n.natAbs : Int) = n := by omega
    rw [if_pos hneg, List.singleton_append, List.cons_append]
    show unsigned true _ = _
    rw [unsigned_toDigits true hn hrest, if_pos rfl, hn']
  · have hn' : (n.natAbs : Int) = n := by omega
    obtain ⟨d, ds, hds, hdigit⟩ := exists_toDigits n.natAbs
    have hnumber : number (Nat.toDigits 10 n.natAbs ++ rest) =
        unsigned false (Nat.toDigits 10 n.natAbs ++ rest) := by
      rw [hds, List.cons_append, number]
      rintro _ ⟨⟩
      cases hdigit
    rw [if_neg hneg, List.nil_append, hnumber, unsigned_toDigits false hn hrest,
      if_neg Bool.false_ne_true, hn']

end QubePolicy.Json.Reader

namespace QubePolicy.Json

/-! ## values -/

/-- The values that are read back: whole numbers that are kept in 53 binary digits, and objects
without two members of one name. -/
inductive Readable : Json → Prop where
  | null : Readable .null
  | bool (b : Bool) : Readable (.bool b)
  | number {n : Int} : n.natAbs < Binary64.mantissaBound → Readable (.number (.whole n))
  | string (s : String) : Readable (.string s)
  | array {items : List Json} : (∀ v ∈ items, Readable v) → Readable (.array items)
  | object {members : List (String × Json)} : (members.map Prod.fst).Nodup →
      (∀ m ∈ members, Readable m.2) → Readable (.object members)

theorem insert_of_fresh {key : String} {members : List (String × Json)}
    (h : key ∉ members.map Prod.fst) (v : Json) : insert key v members = members ++ [(key, v)] := by
  have hnone : members.any (·.1 == key) = false := by
    simp only [List.any_eq_false, beq_iff_eq]
    exact fun m hm hkey => h (List.mem_map.mpr ⟨m, hm, hkey⟩)
  rw [insert, hnone, if_neg Bool.false_ne_true]

namespace Reader

variable {rest : List Char} {fuel : Nat}

/-- The text of the value is read as the value, in front of any text that does not go on with it. -/
def ReadsBack (v : Json) : Prop := ∀ (fuel : Nat) (rest : List Char), Stops rest →
  v.renderChars.length ≤ fuel → value fuel (v.renderChars ++ rest) = some (v, rest)

theorem stops_mark {c : Char} (h : c ∈ [',', ']', '\x7d']) (cs : List Char) : Stops (c :: cs) := by
  simp only [List.mem_cons, List.not_mem_nil, or_false] at h
  rcases h with rfl | rfl | rfl <;> exact stops_cons (by decide) (by decide) cs

theorem items_renderItems {vs : List Json} (hall : ∀ v ∈ vs, ReadsBack v) (hne : vs ≠ [])
    (hfuel : (renderItems vs).length < fuel) (rest : List Char) :
    items fuel (renderItems vs ++ ']' :: rest) = some (vs, rest) := by
  induction vs generalizing fuel with
  | nil => exact absurd rfl hne
  | cons v vs ih =>
    obtain ⟨fuel, rfl⟩ := Nat.exists_eq_succ_of_ne_zero (Nat.ne_of_gt (Nat.zero_lt_of_lt hfuel))
    have hv := hall v List.mem_cons_self
    cases vs with
    | nil =>
      rw [renderItems] at hfuel ⊢
      rw [items, hv fuel _ (stops_mark (by decide) rest) (by omega)]
      rfl
    | cons w vs =>
      rw [renderItems, List.length_append, List.length_cons] at hfuel
      have hvs : items fuel (renderItems (w :: vs) ++ ']' :: rest) = some (w :: vs, rest) :=
        ih (fun u hu => hall u (List.mem_cons_of_mem v hu)) (List.cons_ne_nil w vs) (by omega)
      rw [renderItems, List.append_assoc, List.cons_append, items,
        hv fuel _ (stops_mark (by decide) _) (by omega)]
      show (items fuel (renderItems (w :: vs) ++ ']' :: rest)).bind _ = _
      rw [hvs]
      rfl

theorem members_renderString {k : String} {v : Json} (hv : ReadsBack v)
    {before : List (String × Json)} (hfresh : k ∉ before.map Prod.fst)
    (hfuel : v.renderChars.length ≤ fuel) {c : Char} (hc : c ∈ [',', ']', '\x7d'])
    (hspace : isSpace c = false) (rest : List Char) :
    members (fuel + 1) before (renderString k ++ ':' :: (v.renderChars ++ c :: rest)) =
      match c :: rest with
      | ',' :: cs => members fuel (before ++ [(k, v)]) cs
      | '\x7d' :: cs => some (before ++ [(k, v)], cs)
      | _ => none := by
  have hkey : renderString k ++ ':' :: (v.renderChars ++ c :: rest) =
      '"' :: (k.toList.flatMap escape ++ '"' :: ':' :: (v.renderChars ++ c :: rest)) := by
    simp [renderString]
  rw [hkey, members, skipSpace_cons (by decide)]
  simp only [text_escaped, Option.bind_eq_bind, Option.bind_some,
    skipSpace_cons (c := ':') (by decide), hv fuel _ (stops_mark hc rest) hfuel, insert_of_fresh hfresh v, skipSpace_cons hspace]
  rfl

theorem members_renderMembers {before ms : List (String × Json)} (hall : ∀ m ∈ ms, ReadsBack m.2)
    (hne : ms ≠ []) (hkeys : ((before ++ ms).map Prod.fst).Nodup)
    (hfuel : (renderMembers ms).length ≤ fuel) (rest : List Char) :
    members fuel before (renderMembers ms ++ '\x7d' :: rest) = some (before ++ ms, rest) := by
  induction ms generalizing fuel before with
  | nil => exact absurd rfl hne
  | cons m ms ih =>
    obtain ⟨k, v⟩ := m
    have hv : ReadsBack v := hall (k, v) List.mem_cons_self
    have hfresh : k ∉ before.map Prod.fst := by
      rw [List.map_append, List.map_cons] at hkeys
      exact fun hk => (List.nodup_append.mp hkeys).2.2 k hk k List.mem_cons_self rfl
    cases ms with
    | nil =>
      rw [renderMembers, List.length_append, List.length_cons] at hfuel
      obtain ⟨fuel, rfl⟩ := Nat.exists_eq_succ_of_ne_zero (n := fuel) (by omega)
      rw [renderMembers, List.append_assoc, List.cons_append]
      exact members_renderString hv hfresh (by omega) (by decide) (by decide) rest
    | cons m' ms =>
      rw [renderMembers, List.length_append, List.length_cons, List.length_append,
        List.length_cons] at hfuel
      obtain ⟨fuel, rfl⟩ := Nat.exists_eq_succ_of_ne_zero (n := fuel) (by omega)
      have hrest : members fuel (before ++ [(k, v)]) (renderMembers (m' :: ms) ++ '\x7d' :: rest) =
          some (before ++ [(k, v)] ++ m' :: ms, rest) :=
        ih (fun m hm => hall m (List.mem_cons_of_mem _ hm)) (List.cons_ne_nil m' ms)
          (by rwa [List.append_assoc]) (by omega)
      rw [List.append_assoc] at hrest
      rw [renderMembers, List.append_assoc, List.cons_append, List.append_assoc, List.cons_append,
        members_renderString hv hfresh (by omega) (by decide) (by decide)]
      exact hrest

/-- The text of a value begins with no blank and does not look like the end of an array. -/
theorem exists_renderChars {v : Json} (h : v.Readable) :
    ∃ c cs, v.renderChars = c :: cs ∧ isSpace c = false ∧ c ≠ ']' := by
  cases h with
  | null => exact ⟨_, _, rfl, by decide, by decide⟩
  | bool b => cases b <;> exact ⟨_, _, rfl, by decide, by decide⟩
  | string s => exact ⟨_, _, rfl, by decide, by decide⟩
  | array _ => exact ⟨_, _, rfl, by decide, by decide⟩
  | object _ _ => exact ⟨_, _, rfl, by decide, by decide⟩
  | number hn =>
    obtain ⟨c, cs, hcs, hc⟩ := exists_renderNumber hn
    rcases hc with rfl | hc
    · exact ⟨_, cs, hcs, by decide, by decide⟩
    · refine ⟨c, cs, hcs, isSpace_of_isDigit hc, ?_⟩
      rintro rfl
      cases hc

theorem exists_fuel {v : Json} (h : v.Readable) (hfuel : v.renderChars.length ≤ fuel) :
    ∃ n, fuel = n + 1 := by
  obtain ⟨c, cs, hcs, -⟩ := exists_renderChars h
  rw [hcs, List.length_cons] at hfuel
  exact ⟨fuel - 1, by omega⟩

theorem value_of_number {c : Char} (hc : c = '-' ∨ c.isDigit = true) (cs : List Char) :
    value (fuel + 1) (c :: cs) = (number (c :: cs)).map fun (n, rest) => (.number n, rest) := by
  rcases hc with rfl | hc
  · rfl
  · rw [value, skipSpace_cons (isSpace_of_isDigit hc)]
    split <;> first | rfl | (next h => cases h; cases hc)

theorem value_of_items {c : Char} (hspace : isSpace c = false) (hc : c ≠ ']') (cs : List Char) :
    value (fuel + 1) ('[' :: c :: cs) =
      (items fuel (c :: cs)).map fun (vs, rest) => (.array vs, rest) := by
  rw [value, skipSpace_cons (by decide)]
  simp only [skipSpace_cons hspace]
  split
  · next h => exact absurd (List.cons.inj h).1 hc
  · rfl

theorem exists_renderItems {v : Json} (h : v.Readable) (vs : List Json) :
    ∃ c cs, renderItems (v :: vs) = c :: cs ∧ isSpace c = false ∧ c ≠ ']' := by
  obtain ⟨c, cs, hcs, hc⟩ := exists_renderChars h
  cases vs with
  | nil => exact ⟨c, cs, by rw [renderItems, hcs], hc⟩
  | cons w vs => exact ⟨c, _, by rw [renderItems, hcs, List.cons_append], hc⟩

theorem exists_renderMembers (m : String × Json) (ms : List (String × Json)) :
    ∃ cs, renderMembers (m :: ms) = '"' :: cs := by
  cases ms <;> exact ⟨_, rfl⟩

theorem readsBack_number {n : Int} (hn : n.natAbs < Binary64.mantissaBound) :
    ReadsBack (.number (.whole n)) := by
  intro fuel rest hrest hfuel
  obtain ⟨fuel, rfl⟩ := exists_fuel (.number hn) hfuel
  obtain ⟨c, cs, hcs, hc⟩ := exists_renderNumber hn
  have hnumber := number_renderNumber hn hrest
  rw [renderChars, hcs, List.cons_append] at *
  rw [value_of_number hc, hnumber]
  rfl

theorem readsBack_string (s : String) : ReadsBack (.string s) := by
  intro fuel rest _ hfuel
  obtain ⟨fuel, rfl⟩ := exists_fuel (.string s) hfuel
  have htext : (Json.string s).renderChars ++ rest =
      '"' :: (s.toList.flatMap escape ++ '"' :: rest) := by
    simp [renderChars, renderString]
  rw [htext, value, skipSpace_cons (by decide)]
  simp only [text_escaped, Option.map_some]

theorem readsBack_array {vs : List Json} (h : ∀ v ∈ vs, v.Readable) (hall : ∀ v ∈ vs, ReadsBack v) :
    ReadsBack (.array vs) := by
  intro fuel rest _ hfuel
  obtain ⟨fuel, rfl⟩ := exists_fuel (.array h) hfuel
  cases vs with
  | nil => rfl
  | cons v vs =>
    rw [renderChars, List.length_cons, List.length_append, List.length_singleton] at hfuel
    have hitems : items fuel (renderItems (v :: vs) ++ ']' :: rest) = some (v :: vs, rest) :=
      items_renderItems hall (List.cons_ne_nil v vs) (by omega) rest
    obtain ⟨c, cs, hcs, hspace, hc⟩ := exists_renderItems (h v List.mem_cons_self) vs
    rw [renderChars, List.cons_append, List.append_assoc, List.singleton_append]
    rw [hcs, List.cons_append] at hitems ⊢
    rw [value_of_items hspace hc, hitems]
    rfl

theorem readsBack_object {ms : List (String × Json)} (hkeys : (ms.map Prod.fst).Nodup)
    (h : ∀ m ∈ ms, m.2.Readable) (hall : ∀ m ∈ ms, ReadsBack m.2) : ReadsBack (.object ms) := by
  intro fuel rest _ hfuel
  obtain ⟨fuel, rfl⟩ := exists_fuel (.object hkeys h) hfuel
  cases ms with
  | nil => rfl
  | cons m ms =>
    rw [renderChars, List.length_cons, List.length_append, List.length_singleton] at hfuel
    have hmembers : members fuel [] (renderMembers (m :: ms) ++ '\x7d' :: rest) =
        some (m :: ms, rest) :=
      members_renderMembers hall (List.cons_ne_nil m ms) hkeys (by omega) rest
    obtain ⟨cs, hcs⟩ := exists_renderMembers m ms
    rw [renderChars, List.cons_append, List.append_assoc, List.singleton_append]
    rw [hcs, List.cons_append] at hmembers ⊢
    show (members fuel [] ('"' :: (cs ++ '\x7d' :: rest))).map _ = _
    rw [hmembers]
    rfl

/-- **A value that can be read is read back**, in front of any text that does not go on with it. -/
theorem value_renderChars {v : Json} (h : v.Readable) : ReadsBack v := by
  induction h with
  | null =>
    intro fuel rest _ hfuel
    obtain ⟨fuel, rfl⟩ := exists_fuel .null hfuel
    rfl
  | bool b =>
    intro fuel rest _ hfuel
    obtain ⟨fuel, rfl⟩ := exists_fuel (.bool b) hfuel
    cases b <;> rfl
  | number hn => exact readsBack_number hn
  | string s => exact readsBack_string s
  | array h ih => exact readsBack_array h ih
  | object hkeys h ih => exact readsBack_object hkeys h ih

end Reader

/-- **The text of a value that can be read is read as that value.** -/
theorem parse?_render {v : Json} (h : v.Readable) : parse? v.render = some v := by
  have hread :=
    Reader.value_renderChars h (2 * v.renderChars.length + 2) [] Reader.stops_nil (by omega)
  rw [List.append_nil] at hread
  rw [parse?, render, String.toList_ofList, hread]
  rfl

end QubePolicy.Json
