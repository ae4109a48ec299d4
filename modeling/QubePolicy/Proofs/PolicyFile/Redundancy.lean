import QubePolicy.PolicyFile.Validation
import QubePolicy.Proofs.Line.Errors
import QubePolicy.Proofs.Rule.Meaning

/-!
# Redundant rules

A rule line is told to be redundant just when an earlier line is a rule of the same meaning, and
the first such line is named.

* `Line.SameMeaning`         two lines are rules of one meaning;
* `Line.reports`             what is told of a line, by the lines before it;
* `PolicyFile.mem_diagnostics_iff`    the diagnostics of a file are the reports of its lines;
* `PolicyFile.redundancy_exact`       the warnings about redundant rules are exact.
-/

namespace QubePolicy

namespace Line

variable {allowIncludes : Bool} {k l : Line}

/-! ## lines as they are read -/

theorem read_of_mem {n : Nat} {raws : List String} (hl : l ∈ readFrom allowIncludes n raws) :
    l = Line.read allowIncludes l.number l.raw ∧ n ≤ l.number := by
  induction raws generalizing n with
  | nil => cases hl
  | cons raw raws ih =>
    rw [readFrom_cons] at hl
    rcases List.mem_cons.mp hl with rfl | hl
    · exact ⟨rfl, Nat.le_refl n⟩
    · obtain ⟨hread, hn⟩ := ih hl
      exact ⟨hread, by omega⟩

theorem pairwise_number_readFrom (allowIncludes : Bool) (n : Nat) (raws : List String) :
    (readFrom allowIncludes n raws).Pairwise fun k l => k.number < l.number := by
  induction raws generalizing n with
  | nil => exact List.Pairwise.nil
  | cons raw raws ih =>
    refine List.pairwise_cons.mpr ⟨fun l hl => ?_, ih (n + 1)⟩
    exact Nat.lt_of_succ_le (read_of_mem hl).2

theorem wellFormed_of_rule (hl : l = Line.read allowIncludes l.number l.raw) {r : Rule}
    (h : l.content = .rule r) : r.WellFormed := by
  rw [hl] at h
  exact Rule.Parsed.wellFormed ⟨_, _, _, h⟩

/-! ## rules of one meaning -/

def SameMeaning (k l : Line) : Prop :=
  ∃ r s, k.content = .rule r ∧ l.content = .rule s ∧ r.SameMeaning s

def key? (l : Line) : Option String :=
  match l.content with
  | .rule r => some r.key
  | _ => none

theorem key?_eq_some_iff {key : String} :
    l.key? = some key ↔ ∃ r, l.content = .rule r ∧ r.key = key := by
  unfold key?
  cases l.content <;> simp

theorem sameMeaning_iff (hk : k = Line.read allowIncludes k.number k.raw)
    (hl : l = Line.read allowIncludes l.number l.raw) :
    k.SameMeaning l ↔ ∃ key, k.key? = some key ∧ l.key? = some key := by
  constructor
  · rintro ⟨r, s, hr, hs, hsame⟩
    have hkey := (Rule.key_eq_iff (wellFormed_of_rule hk hr) (wellFormed_of_rule hl hs)).mpr hsame
    exact ⟨s.key, key?_eq_some_iff.mpr ⟨r, hr, hkey⟩, key?_eq_some_iff.mpr ⟨s, hs, rfl⟩⟩
  · rintro ⟨key, hkkey, hlkey⟩
    obtain ⟨r, hr, hrkey⟩ := key?_eq_some_iff.mp hkkey
    obtain ⟨s, hs, rfl⟩ := key?_eq_some_iff.mp hlkey
    exact ⟨r, s, hr, hs,
      (Rule.key_eq_iff (wellFormed_of_rule hk hr) (wellFormed_of_rule hl hs)).mp hrkey⟩

/-! ## reports -/

def reports (before : List Line) (l : Line) : List Diagnostic :=
  match l.key? with
  | some key =>
    ((before.find? (·.key? == some key)).map fun k => PolicyFile.redundancy l k.number).toList
  | none => l.diagnostics

theorem line_of_mem_diagnostics {d : Diagnostic} (hd : d ∈ l.diagnostics) : d.line = l.number := by
  unfold diagnostics at hd
  split at hd
  · obtain ⟨f, -, rfl⟩ := List.mem_map.mp hd
    rfl
  · cases hd

theorem mem_reports_of_key {key : String} (hkey : l.key? = some key) {before : List Line}
    {d : Diagnostic} : d ∈ l.reports before ↔
      ∃ k, before.find? (·.key? == some key) = some k ∧ PolicyFile.redundancy l k.number = d := by
  unfold reports
  rw [hkey]
  simp only [Option.mem_toList, Option.map_eq_some_iff]

theorem line_of_mem_reports {before : List Line} {d : Diagnostic} (hd : d ∈ l.reports before) :
    d.line = l.number := by
  cases hkey : l.key? with
  | some key =>
    obtain ⟨k, -, rfl⟩ := (mem_reports_of_key hkey).mp hd
    rfl
  | none =>
    rw [reports, hkey] at hd
    exact line_of_mem_diagnostics hd

theorem mem_reports_redundant_iff (hl : l = Line.read allowIncludes l.number l.raw)
    {before : List Line} {d : Diagnostic} :
    d ∈ l.reports before ∧ d.kind = .redundantRule ↔ ∃ key k, l.key? = some key ∧
      before.find? (·.key? == some key) = some k ∧ PolicyFile.redundancy l k.number = d := by
  constructor
  · rintro ⟨hd, hkind⟩
    cases hkey : l.key? with
    | some key =>
      obtain ⟨k, hk, hreport⟩ := (mem_reports_of_key hkey).mp hd
      exact ⟨key, k, rfl, hk, hreport⟩
    | none =>
      rw [reports, hkey, hl] at hd
      obtain ⟨f, hf, rfl⟩ := exists_of_mem_diagnostics hd
      exact absurd hkind (Diagnostic.Kind.severity_eq_error_iff.mp hf.isError)
  · rintro ⟨key, k, hkey, hk, rfl⟩
    exact ⟨(mem_reports_of_key hkey).mpr ⟨k, hk, rfl⟩, rfl⟩

theorem pairwise_redundant_reports (hl : l = Line.read allowIncludes l.number l.raw)
    (before : List Line) : ((l.reports before).filter (·.kind == .redundantRule)).Pairwise
      fun d e => d.line < e.line := by
  cases hkey : l.key? with
  | some key =>
    refine List.Pairwise.filter _ ?_
    rw [reports, hkey]
    simp only
    cases before.find? (·.key? == some key) with
    | some k => exact List.pairwise_singleton _ _
    | none => exact List.Pairwise.nil
  | none =>
    have hnone : (l.reports before).filter (·.kind == .redundantRule) = [] := by
      rw [List.filter_eq_nil_iff]
      intro d hd hkind
      obtain ⟨key, k, h, -⟩ :=
        (mem_reports_redundant_iff hl).mp ⟨hd, by simpa using hkind⟩
      rw [hkey] at h
      cases h
    rw [hnone]
    exact List.Pairwise.nil

end Line

namespace PolicyFile

def reportsFrom (before : List Line) : List Line → List Diagnostic
  | [] => []
  | l :: ls => l.reports before ++ reportsFrom (before ++ [l]) ls

/-- The table gives, for each key, the number of the first of the lines with a rule of that key. -/
def Records (seen : List (String × Nat)) (before : List Line) : Prop :=
  ∀ key, seen.lookup key = (before.find? (·.key? == some key)).map Line.number

variable {seen : List (String × Nat)} {before : List Line} {l : Line}

theorem Records.of_key (h : Records seen before) {key : String} {earlier : Nat}
    (hkey : l.key? = some key) (hseen : seen.lookup key = some earlier) :
    Records seen (before ++ [l]) := by
  intro k
  rw [List.find?_append, h k]
  by_cases hk : k = key
  · have hfound := h key
    rw [hseen] at hfound
    obtain ⟨j, hj, -⟩ := Option.map_eq_some_iff.mp hfound.symm
    rw [hk, hj, Option.some_or]
  · have hne : (l.key? == some k) = false := by simpa [hkey] using Ne.symm hk
    rw [List.find?_singleton, hne]
    simp

theorem Records.cons (h : Records seen before) {key : String} (hkey : l.key? = some key)
    (hseen : seen.lookup key = none) : Records ((key, l.number) :: seen) (before ++ [l]) := by
  intro k
  rw [List.find?_append, List.lookup_cons, List.find?_singleton]
  by_cases hk : k = key
  · have hnone := h key
    rw [hseen] at hnone
    have hfresh := Option.map_eq_none_iff.mp hnone.symm
    rw [hk, hfresh, hkey]
    simp
  · have hne : (l.key? == some k) = false := by simpa [hkey] using Ne.symm hk
    have hne' : (k == key) = false := by simpa using hk
    rw [hne, hne', h k]
    simp

theorem Records.of_none (h : Records seen before) (hkey : l.key? = none) :
    Records seen (before ++ [l]) := by
  intro k
  rw [List.find?_append, h k, List.find?_singleton, hkey]
  simp

theorem diagnosticsFrom_eq {ls : List Line} (h : Records seen before) :
    diagnosticsFrom seen ls = reportsFrom before ls := by
  induction ls generalizing seen before with
  | nil => rfl
  | cons l ls ih =>
    rw [diagnosticsFrom.eq_def, reportsFrom]
    cases hcontent : l.content with
    | rule r =>
      have hkey : l.key? = some r.key := Line.key?_eq_some_iff.mpr ⟨r, hcontent, rfl⟩
      have hfound := h r.key
      simp only [hcontent]
      cases hseen : seen.lookup r.key with
      | some earlier =>
        rw [hseen] at hfound
        obtain ⟨k, hk, rfl⟩ := Option.map_eq_some_iff.mp hfound.symm
        rw [Line.reports, hkey, ih (h.of_key hkey hseen)]
        simp [hk]
      | none =>
        rw [hseen] at hfound
        have hk := Option.map_eq_none_iff.mp hfound.symm
        rw [Line.reports, hkey, ih (h.cons hkey hseen)]
        simp [hk]
    | _ =>
      have hkey : l.key? = none := by rw [Line.key?, hcontent]
      simp only [hcontent]
      rw [Line.reports, hkey, ih (h.of_none hkey)]

theorem diagnostics_eq (f : PolicyFile) : f.diagnostics = reportsFrom [] f.lines :=
  diagnosticsFrom_eq fun _ => rfl

theorem mem_reportsFrom_iff {ls : List Line} {d : Diagnostic} : d ∈ reportsFrom before ls ↔
    ∃ front l back, ls = front ++ l :: back ∧ d ∈ l.reports (before ++ front) := by
  induction ls generalizing before with
  | nil => simp [reportsFrom]
  | cons m ls ih =>
    rw [reportsFrom, List.mem_append, ih]
    constructor
    · rintro (hd | ⟨front, l, back, rfl, hd⟩)
      · exact ⟨[], m, ls, rfl, by rwa [List.append_nil]⟩
      · exact ⟨m :: front, l, back, rfl, by rwa [List.append_cons]⟩
    · rintro ⟨front, l, back, hls, hd⟩
      cases front with
      | nil =>
        cases hls
        rw [List.append_nil] at hd
        exact .inl hd
      | cons n front =>
        cases hls
        rw [List.append_cons] at hd
        exact .inr ⟨front, l, back, rfl, hd⟩

theorem mem_diagnostics_iff {f : PolicyFile} {d : Diagnostic} : d ∈ f.diagnostics ↔
    ∃ front l back, f.lines = front ++ l :: back ∧ d ∈ l.reports front := by
  rw [diagnostics_eq, mem_reportsFrom_iff]
  simp only [List.nil_append]

/-! ## the lines of a file -/

theorem read_of_mem_lines {f : PolicyFile} {l : Line} (hl : l ∈ f.lines) :
    l = Line.read f.allowIncludes l.number l.raw :=
  (Line.read_of_mem hl).1

theorem pairwise_number_lines (f : PolicyFile) :
    f.lines.Pairwise fun k l => k.number < l.number :=
  Line.pairwise_number_readFrom _ _ _

theorem mem_front_iff {f : PolicyFile} {front back : List Line} {k l : Line}
    (hlines : f.lines = front ++ l :: back) : k ∈ front ↔ k ∈ f.lines ∧ k.number < l.number := by
  have hpairwise := f.pairwise_number_lines
  rw [hlines, List.pairwise_append] at hpairwise
  obtain ⟨-, hback, hfront⟩ := hpairwise
  rw [hlines, List.mem_append, List.mem_cons]
  constructor
  · intro hk
    exact ⟨.inl hk, hfront k hk l List.mem_cons_self⟩
  · rintro ⟨hk | rfl | hk, hlt⟩
    · exact hk
    · exact absurd hlt (Nat.lt_irrefl _)
    · exact absurd hlt (Nat.lt_asymm ((List.pairwise_cons.mp hback).1 k hk))

theorem eq_of_number {f : PolicyFile} {k l : Line} (hk : k ∈ f.lines) (hl : l ∈ f.lines)
    (hnumber : k.number = l.number) : k = l := by
  obtain ⟨front, back, hlines⟩ := List.append_of_mem hl
  have hk' := hk
  rw [hlines, List.mem_append, List.mem_cons] at hk'
  rcases hk' with hfront | rfl | hback
  · exact absurd hnumber (Nat.ne_of_lt ((mem_front_iff hlines).mp hfront).2)
  · rfl
  · have hpairwise := f.pairwise_number_lines
    rw [hlines, List.pairwise_append] at hpairwise
    exact absurd hnumber.symm
      (Nat.ne_of_lt ((List.pairwise_cons.mp hpairwise.2.1).1 k hback))

/-! ## exactness -/

/-- The first of the lines before `l` that are rules of the meaning of `l` is `k`. -/
structure FirstLike (f : PolicyFile) (k l : Line) : Prop where
  mem : k ∈ f.lines ∧ l ∈ f.lines
  earlier : k.number < l.number
  same : k.SameMeaning l
  first : ∀ j ∈ f.lines, j.number < k.number → ¬j.SameMeaning l

variable {f : PolicyFile} {k : Line}

/-- The first line with the key of a line is the first rule of its meaning. -/
theorem find?_key_eq_some_iff {front back : List Line} (hlines : f.lines = front ++ l :: back)
    {key : String} (hkey : l.key? = some key) :
    front.find? (·.key? == some key) = some k ↔ f.FirstLike k l := by
  have hmem : l ∈ f.lines := by simp [hlines]
  have hsame (j : Line) (hj : j ∈ f.lines) : j.SameMeaning l ↔ j.key? = some key := by
    rw [Line.sameMeaning_iff (read_of_mem_lines hj) (read_of_mem_lines hmem), hkey]
    simp
  rw [List.find?_eq_some_iff_append]
  constructor
  · rintro ⟨hk, initial, rest, rfl, hinitial⟩
    obtain ⟨hkmem, hlt⟩ := (mem_front_iff (k := k) hlines).mp (by simp)
    have hsplit : f.lines = initial ++ k :: (rest ++ l :: back) := by simp [hlines]
    refine ⟨⟨hkmem, hmem⟩, hlt, (hsame k hkmem).mpr (by simpa using hk), fun j hj hjk => ?_⟩
    have hne := hinitial j ((mem_front_iff hsplit).mpr ⟨hj, hjk⟩)
    rw [hsame j hj]
    simpa using hne
  · rintro ⟨⟨hkmem, -⟩, hlt, hk, hfirst⟩
    obtain ⟨initial, rest, rfl⟩ := List.append_of_mem ((mem_front_iff hlines).mpr ⟨hkmem, hlt⟩)
    have hsplit : f.lines = initial ++ k :: (rest ++ l :: back) := by simp [hlines]
    refine ⟨by simpa using (hsame k hkmem).mp hk, initial, rest, rfl, fun j hj => ?_⟩
    obtain ⟨hjmem, hjk⟩ := (mem_front_iff hsplit).mp hj
    simpa [hsame j hjmem] using hfirst j hjmem hjk

theorem mem_diagnostics_redundant_iff {d : Diagnostic} :
    d ∈ f.diagnostics ∧ d.kind = .redundantRule ↔
      ∃ k l, f.FirstLike k l ∧ d = redundancy l k.number := by
  constructor
  · rintro ⟨hd, hkind⟩
    obtain ⟨front, l, back, hlines, hreport⟩ := mem_diagnostics_iff.mp hd
    have hl := read_of_mem_lines (f := f) (l := l) (by simp [hlines])
    obtain ⟨key, k, hkey, hk, rfl⟩ := (Line.mem_reports_redundant_iff hl).mp ⟨hreport, hkind⟩
    exact ⟨k, l, (find?_key_eq_some_iff hlines hkey).mp hk, rfl⟩
  · rintro ⟨k, l, hfirst, rfl⟩
    obtain ⟨front, back, hlines⟩ := List.append_of_mem hfirst.mem.2
    obtain ⟨r, s, -, hs, -⟩ := hfirst.same
    have hkey : l.key? = some s.key := Line.key?_eq_some_iff.mpr ⟨s, hs, rfl⟩
    have hk := (find?_key_eq_some_iff hlines hkey).mpr hfirst
    exact ⟨mem_diagnostics_iff.mpr ⟨front, l, back, hlines,
      (Line.mem_reports_of_key hkey).mpr ⟨k, hk, rfl⟩⟩, rfl⟩

theorem exists_firstLike (hk : k ∈ f.lines) (hl : l ∈ f.lines) (hlt : k.number < l.number)
    (hsame : k.SameMeaning l) : ∃ first, f.FirstLike first l := by
  obtain ⟨front, back, hlines⟩ := List.append_of_mem hl
  obtain ⟨key, hkkey, hlkey⟩ :=
    (Line.sameMeaning_iff (read_of_mem_lines hk) (read_of_mem_lines hl)).mp hsame
  cases hfind : front.find? (·.key? == some key) with
  | some first => exact ⟨first, (find?_key_eq_some_iff hlines hlkey).mp hfind⟩
  | none =>
    have hnone := List.find?_eq_none.mp hfind k ((mem_front_iff hlines).mpr ⟨hk, hlt⟩)
    exact absurd (by simpa using hkkey) hnone

/-- Reports stand in a relation if those of one line do, and all that are in the order of their
lines. -/
theorem pairwise_reportsFrom {R : Diagnostic → Diagnostic → Prop}
    (hlines : ∀ d e : Diagnostic, d.line < e.line → R d e) {ls : List Line}
    (hls : ls.Pairwise fun k l => k.number < l.number)
    (hline : ∀ l ∈ ls, ∀ before, (l.reports before).Pairwise R) :
    (reportsFrom before ls).Pairwise R := by
  induction ls generalizing before with
  | nil => exact List.Pairwise.nil
  | cons l ls ih =>
    obtain ⟨hhead, htail⟩ := List.pairwise_cons.mp hls
    rw [reportsFrom, List.pairwise_append]
    refine ⟨hline l List.mem_cons_self before,
      ih htail fun m hm => hline m (List.mem_cons_of_mem l hm), fun d hd e he => hlines d e ?_⟩
    obtain ⟨front, m, back, hsplit, hreport⟩ := mem_reportsFrom_iff.mp he
    have hlt : l.number < m.number := hhead m (by simp [hsplit])
    rw [Line.line_of_mem_reports hd, Line.line_of_mem_reports hreport]
    exact Int.ofNat_lt.mpr hlt

theorem pairwise_line_reportsFrom {ls : List Line}
    (hls : ls.Pairwise fun k l => k.number < l.number)
    (hread : ∀ l ∈ ls, l = Line.read f.allowIncludes l.number l.raw) :
    ((reportsFrom before ls).filter (·.kind == .redundantRule)).Pairwise
      fun d e => d.line < e.line := by
  rw [List.pairwise_filter]
  refine pairwise_reportsFrom (fun d e hlt _ _ => hlt) hls fun l hl before => ?_
  exact List.pairwise_filter.mp (Line.pairwise_redundant_reports (hread l hl) before)

/-- **The warnings about redundant rules are exact.** A line has one just when an earlier line is a
rule of the same meaning, it has one only, and that one names the first such line; and parsed rules
have one key just when they have one meaning. -/
theorem redundancy_exact (f : PolicyFile) :
    (∀ l ∈ f.lines, (∃ d ∈ f.diagnostics, d.kind = .redundantRule ∧ d.line = l.number) ↔
      ∃ k ∈ f.lines, k.number < l.number ∧ k.SameMeaning l) ∧
    ((f.diagnostics.filter (·.kind == .redundantRule)).Pairwise fun d e => d.line < e.line) ∧
    (∀ d ∈ f.diagnostics, d.kind = .redundantRule → ∃ k l, f.FirstLike k l ∧
      d = redundancy l k.number ∧ d.line = l.number ∧
      d.message = s!"Rule duplicates line {k.number} and can never match") ∧
    ∀ r s : Rule, r.Parsed → s.Parsed → (r.key = s.key ↔ r.SameMeaning s) := by
  refine ⟨fun l hl => ⟨?_, ?_⟩, ?_, fun d hd hkind => ?_, fun r s hr hs => ?_⟩
  · rintro ⟨d, hd, hkind, hline⟩
    obtain ⟨k, l', hfirst, rfl⟩ := mem_diagnostics_redundant_iff.mp ⟨hd, hkind⟩
    have hnumber : l'.number = l.number := Int.ofNat.inj hline
    rw [eq_of_number hfirst.mem.2 hl hnumber] at hfirst
    exact ⟨k, hfirst.mem.1, hfirst.earlier, hfirst.same⟩
  · rintro ⟨k, hk, hlt, hsame⟩
    obtain ⟨first, hfirst⟩ := exists_firstLike hk hl hlt hsame
    obtain ⟨hd, hkind⟩ := mem_diagnostics_redundant_iff.mpr ⟨first, l, hfirst, rfl⟩
    exact ⟨_, hd, hkind, rfl⟩
  · rw [diagnostics_eq]
    exact pairwise_line_reportsFrom f.pairwise_number_lines fun l hl => read_of_mem_lines hl
  · obtain ⟨k, l, hfirst, rfl⟩ := mem_diagnostics_redundant_iff.mp ⟨hd, hkind⟩
    exact ⟨k, l, hfirst, rfl, rfl, rfl⟩
  · exact Rule.key_eq_iff hr.wellFormed hs.wellFormed

/-! ## a rule with its parameters the other way round -/

def copying (parameters : List Parameter) : Rule :=
  ⟨.wildcard, .any, .literal "work", .literal "vault", .grant .allow none parameters⟩

def rootFirst : Line :=
  ⟨"* * work vault allow user=root notify=no", 2,
    .rule (copying [⟨"user", "root"⟩, ⟨"notify", "no"⟩])⟩

def rootLast : Line :=
  ⟨"* *  work vault\tallow notify=no user=root", 4,
    .rule (copying [⟨"notify", "no"⟩, ⟨"user", "root"⟩])⟩

def repeatingFile : PolicyFile :=
  .ofText "repeating" false ("# copies\n* * work vault allow user=root notify=no\n" ++
    "* * work @anyvm deny\n* *  work vault\tallow notify=no user=root")

theorem lines_repeatingFile : repeatingFile.lines =
    [⟨"# copies", 1, .comment "copies"⟩, rootFirst,
      ⟨"* * work @anyvm deny", 3, .rule ⟨.wildcard, .any, .literal "work", .anyVM, .deny⟩⟩,
      rootLast] := by
  decide +kernel

theorem sameMeaning_copying :
    (copying [⟨"user", "root"⟩, ⟨"notify", "no"⟩]).SameMeaning
      (copying [⟨"notify", "no"⟩, ⟨"user", "root"⟩]) := by
  refine ⟨rfl, rfl, rfl, rfl, rfl, rfl, fun key => ?_⟩
  by_cases huser : "user" = key
  · subst huser
    rfl
  · simp [copying, Action.value?, Action.parameters, List.find?_cons, huser]

theorem redundancy_repeatingFile :
    (∃ d ∈ repeatingFile.diagnostics, d.kind = .redundantRule ∧ d.line = 4) ∧
    (copying [⟨"user", "root"⟩, ⟨"notify", "no"⟩]).key =
      (copying [⟨"notify", "no"⟩, ⟨"user", "root"⟩]).key := by
  obtain ⟨hwarned, -, -, hkey⟩ := redundancy_exact repeatingFile
  have hfirst : rootFirst ∈ repeatingFile.lines := by simp [lines_repeatingFile]
  have hlast : rootLast ∈ repeatingFile.lines := by simp [lines_repeatingFile]
  constructor
  · exact (hwarned rootLast hlast).mpr
      ⟨rootFirst, hfirst, by decide, _, _, rfl, rfl, sameMeaning_copying⟩
  · exact (hkey _ _ ⟨false, 2, rootFirst.raw, by decide +kernel⟩
      ⟨false, 4, rootLast.raw, by decide +kernel⟩).mpr sameMeaning_copying

end PolicyFile

end QubePolicy
