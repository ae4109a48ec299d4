import QubePolicy.Proofs.Evaluation.Scan
import QubePolicy.Proofs.PolicyFile.Edits
import QubePolicy.Proofs.PolicyFile.Redundancy

/-!
# Taking out a redundant rule

A rule line that is told to be redundant never decides: an earlier line of its file has a rule of
the same meaning, which would have decided before it.

* `Line.Follows`, `Match.Follows`   lines and matches as they are once a line before them is gone;
* `PolicyFile.Redundant`    the line at an index is told to be redundant;
* `Evaluation.Agree`        two scans fail alike, or find nothing, or find related matches;
* `scanLine_of_redundant`   behind lines that decide nothing, a rule of the meaning of one of them
                            decides nothing either;
* `explain_deleteLine`      without a redundant line the same rule of the same file decides.
-/

namespace QubePolicy

variable {ε : Type}

/-! ## numbers behind a deleted line -/

/-- A line behind the line `n`, and what it is once that line is gone. -/
structure Line.Follows (n : Nat) (l l' : Line) : Prop where
  content : l'.content = l.content
  number : n < l.number ∧ l'.number + 1 = l.number

/-- The same rule of the same file, at the same line or, if it is behind the line `n` of the file
with the given name, at the one before it. -/
structure Match.Follows (name : String) (n : Nat) (m m' : Match) : Prop where
  rule : m'.rule = m.rule
  file : m'.file = m.file
  line : m'.line = m.line ∨ (m.file = name ∧ n < m.line ∧ m'.line + 1 = m.line)

theorem Match.Follows.refl (name : String) (n : Nat) (m : Match) : m.Follows name n m :=
  ⟨rfl, rfl, .inl rfl⟩

theorem Match.Follows.action {name : String} {n : Nat} {m m' : Match} (h : m.Follows name n m') :
    m'.action = m.action := by
  show m'.rule.action = m.rule.action
  rw [h.rule]

/-! ## rules of one meaning -/

theorem Rule.SameMeaning.covers {r s : Rule} (h : r.SameMeaning s) (request : Request) :
    r.covers request = s.covers request := by
  unfold Rule.covers
  rw [h.service, h.argument, h.source, h.destination]

namespace Evaluation

variable {inc : Includes ε} {request : Request} {chain : List String} {file : String}

/-! ## agreement of two scans -/

/-- Both fail alike, or both find nothing, or what they find is related. -/
inductive Agree (R : Match → Match → Prop) :
    Except ε (Option Match) → Except ε (Option Match) → Prop
  | fails (e : ε) : Agree R (.error e) (.error e)
  | nothing : Agree R (.ok none) (.ok none)
  | finds {m m' : Match} : R m m' → Agree R (.ok (some m)) (.ok (some m'))

theorem Agree.refl {R : Match → Match → Prop} (h : ∀ m, R m m) :
    ∀ x : Except ε (Option Match), Agree R x x
  | .error e => .fails e
  | .ok none => .nothing
  | .ok (some m) => .finds (h m)

theorem Agree.andThen {R : Match → Match → Prop} {y y' : Except ε (Option Match)}
    (hy : Agree R y y') : ∀ {x x' : Except ε (Option Match)}, Agree R x x' →
      Agree R (match x with | .ok none => y | found => found)
        (match x' with | .ok none => y' | found => found) := by
  intro x x' hx
  cases hx with
  | fails e => exact .fails e
  | nothing => exact hy
  | finds h => exact .finds h

theorem Agree.map_action {name : String} {n : Nat} {x x' : Except ε (Option Match)}
    (h : Agree (Match.Follows name n) x x') :
    x'.map (Option.map Match.action) = x.map (Option.map Match.action) := by
  cases h with
  | fails e => rfl
  | nothing => rfl
  | finds h =>
    show Except.ok (some _) = Except.ok (some _)
    rw [h.action]

/-! ## lines that decide nothing -/

theorem scanLines_append (front back : List Line) :
    scanLines inc request chain file (front ++ back) =
      match scanLines inc request chain file front with
      | .ok none => scanLines inc request chain file back
      | found => found := by
  induction front with
  | nil => rw [scanLines_nil, List.nil_append]
  | cons l front ih =>
    rw [List.cons_append, scanLines_cons, scanLines_cons, ih]
    cases scanLine inc request chain file l with
    | error e => rfl
    | ok found =>
      cases found with
      | none => rfl
      | some m => rfl

theorem scanLine_of_mem {front : List Line}
    (h : scanLines inc request chain file front = .ok none) :
    ∀ k ∈ front, scanLine inc request chain file k = .ok none := by
  induction front with
  | nil => intro k hk; exact absurd hk List.not_mem_nil
  | cons l front ih =>
    rw [scanLines_cons] at h
    have hl : scanLine inc request chain file l = .ok none := by
      split at h
      · assumption
      · next hfound => exact absurd h hfound
    rw [hl] at h
    intro k hk
    rcases List.mem_cons.mp hk with rfl | hk
    · exact hl
    · exact ih h k hk

/-- Behind a line that decides nothing, a rule of its meaning decides nothing. -/
theorem scanLine_of_redundant {k l : Line} (hsame : k.SameMeaning l)
    (h : scanLine inc request chain file k = .ok none) :
    scanLine inc request chain file l = .ok none := by
  obtain ⟨r, s, hr, hs, hrs⟩ := hsame
  rw [scanLine_of_rule hr] at h
  rw [scanLine_of_rule hs, ← hrs.covers]
  split at h
  · cases h
  · next hcovers => rw [if_neg hcovers]

/-! ## renumbered lines -/

theorem agree_scanLine {n : Nat} {l l' : Line} (h : l.Follows n l') :
    Agree (Match.Follows file n) (scanLine inc request chain file l)
      (scanLine inc request chain file l') := by
  cases hcontent : l.content with
  | rule r =>
    rw [scanLine_of_rule hcontent, scanLine_of_rule (h.content.trans hcontent)]
    by_cases hcovers : r.covers request = true
    · rw [if_pos hcovers, if_pos hcovers]
      exact .finds ⟨rfl, rfl, .inr ⟨rfl, h.number⟩⟩
    · rw [if_neg hcovers, if_neg hcovers]
      exact .nothing
  | _ =>
    rw [scanLine, scanLine, h.content, hcontent]
    exact Agree.refl (Match.Follows.refl file n) _

theorem agree_scanLines {n : Nat} {ls ls' : List Line} (h : List.Forall₂ (Line.Follows n) ls ls') :
    Agree (Match.Follows file n) (scanLines inc request chain file ls)
      (scanLines inc request chain file ls') := by
  induction h with
  | nil => exact Agree.refl (Match.Follows.refl file n) _
  | cons hl _ ih =>
    rw [scanLines_cons, scanLines_cons]
    exact ih.andThen (agree_scanLine hl)

/-- Lines that decide nothing, one of them of the meaning of the next line, which is left out. -/
theorem agree_scanLines_delete {front back back' : List Line} {k l : Line} (hk : k ∈ front)
    (hsame : k.SameMeaning l) (hback : List.Forall₂ (Line.Follows l.number) back back') :
    Agree (Match.Follows file l.number) (scanLines inc request chain file (front ++ l :: back))
      (scanLines inc request chain file (front ++ back')) := by
  rw [scanLines_append, scanLines_append]
  cases hfront : scanLines inc request chain file front with
  | error e => exact .fails e
  | ok found =>
    cases found with
    | some m => exact .finds (.refl file l.number m)
    | none =>
      have hl := scanLine_of_redundant hsame (scanLine_of_mem hfront k hk)
      show Agree _ (scanLines inc request chain file (l :: back)) _
      rw [scanLines_cons, hl]
      exact agree_scanLines hback

end Evaluation

/-! ## the lines of a file without one -/

theorem Line.follows_readFrom (allowIncludes : Bool) {n m : Nat} (h : n ≤ m)
    (raws : List String) : List.Forall₂ (Follows n) (readFrom allowIncludes (m + 1) raws)
      (readFrom allowIncludes m raws) := by
  induction raws generalizing m with
  | nil => exact .nil
  | cons raw raws ih =>
    have hnumber : n < m + 1 := by omega
    exact .cons ⟨rfl, hnumber, rfl⟩ (ih (by omega))

namespace PolicyFile

theorem lines_eraseIdx {f : PolicyFile} {i : Nat} (hi : i < f.raws.length) :
    ∃ front l back back', f.lines = front ++ l :: back ∧ l.number = i + 1 ∧
      { f with raws := f.raws.eraseIdx i }.lines = front ++ back' ∧
      List.Forall₂ (Line.Follows (i + 1)) back back' := by
  have hfront : (f.raws.take i).length = i := by
    rw [List.length_take]
    omega
  have hraws : f.raws = f.raws.take i ++ f.raws[i] :: f.raws.drop (i + 1) := by
    rw [List.getElem_cons_drop, List.take_append_drop]
  refine ⟨Line.readFrom f.allowIncludes 1 (f.raws.take i),
    Line.read f.allowIncludes (i + 1) f.raws[i],
    Line.readFrom f.allowIncludes (i + 1 + 1) (f.raws.drop (i + 1)),
    Line.readFrom f.allowIncludes (i + 1) (f.raws.drop (i + 1)), ?_, rfl, ?_, ?_⟩
  · show Line.readFrom f.allowIncludes 1 f.raws = _
    conv_lhs => rw [hraws]
    rw [Line.readFrom_append, hfront, Line.readFrom_cons, Nat.add_comm 1 i]
  · show Line.readFrom f.allowIncludes 1 (f.raws.eraseIdx i) = _
    rw [List.eraseIdx_eq_take_drop_succ, Line.readFrom_append, hfront, Nat.add_comm 1 i]
  · exact Line.follows_readFrom f.allowIncludes (Nat.le_refl (i + 1)) _

theorem number_le_of_mem_lines {f : PolicyFile} {l : Line} (hl : l ∈ f.lines) :
    l.number ≤ f.raws.length := by
  have hbound (n : Nat) (raws : List String) (hl : l ∈ Line.readFrom f.allowIncludes n raws) :
      l.number < n + raws.length := by
    induction raws generalizing n with
    | nil => exact absurd hl List.not_mem_nil
    | cons raw raws ih =>
      rw [List.length_cons]
      rcases List.mem_cons.mp hl with rfl | hl
      · show n < n + (raws.length + 1)
        omega
      · have hlt := ih (n + 1) hl
        omega
  have hlt := hbound 1 f.raws hl
  omega

/-- The line at the index `i` of a file is told to be redundant. -/
def Redundant (f : PolicyFile) (i : Nat) : Prop :=
  ∃ d ∈ f.diagnostics, d.kind = .redundantRule ∧ d.line = (i + 1 : Nat)

variable {f g : PolicyFile} {i : Nat}

theorem Redundant.exists_lines (h : f.Redundant i) (hg : f.deleteLine (.whole i) = .ok g) :
    ∃ front k l back back', k ∈ front ∧ k.SameMeaning l ∧ l.number = i + 1 ∧
      f.lines = front ++ l :: back ∧ g.lines = front ++ back' ∧
      List.Forall₂ (Line.Follows (i + 1)) back back' := by
  obtain ⟨j, hj, hlt, rfl⟩ := deleteLine_eq_ok_iff.mp hg
  obtain rfl := toNat?_whole.mp hj
  obtain ⟨d, hd, hkind, hline⟩ := h
  obtain ⟨k, l, hfirst, rfl⟩ := mem_diagnostics_redundant_iff.mp ⟨hd, hkind⟩
  have hnumber : l.number = i + 1 := Int.ofNat.inj hline
  obtain ⟨front, m, back, back', hlines, hm, hlines', hback⟩ := lines_eraseIdx hlt
  obtain rfl : l = m := eq_of_number hfirst.mem.2 (by simp [hlines]) (hnumber.trans hm.symm)
  have hk : k ∈ front := (mem_front_iff hlines).mpr ⟨hfirst.mem.1, hfirst.earlier⟩
  exact ⟨front, k, l, back, back', hk, hfirst.same, hnumber, hlines, hlines', hback⟩

theorem Redundant.deleteLine_eq_ok (h : f.Redundant i) :
    ∃ g, f.deleteLine (.whole i) = .ok g := by
  obtain ⟨d, hd, hkind, hline⟩ := h
  obtain ⟨k, l, hfirst, rfl⟩ := mem_diagnostics_redundant_iff.mp ⟨hd, hkind⟩
  have hnumber : l.number = i + 1 := Int.ofNat.inj hline
  have hlt : i < f.raws.length := by
    have hle := number_le_of_mem_lines hfirst.mem.2
    omega
  exact ⟨_, deleteLine_eq_ok_iff.mpr ⟨i, toNat?_whole.mpr rfl, hlt, rfl⟩⟩

end PolicyFile

/-! ## a policy without a redundant line -/

namespace Evaluation

variable {f g : PolicyFile} {i : Nat}

theorem agree_scanFile_delete (inc : Includes ε) (request : Request) (h : f.Redundant i)
    (hg : f.deleteLine (.whole i) = .ok g) :
    Agree (Match.Follows f.name (i + 1)) (scanFile inc request f) (scanFile inc request g) := by
  obtain ⟨front, k, l, back, back', hk, hsame, hnumber, hf, hlines, hback⟩ := h.exists_lines hg
  have hname : g.name = f.name := (PolicyFile.keeps_deleteLine hg).name
  unfold scanFile
  rw [hname, hf, hlines]
  rw [← hnumber] at hback ⊢
  exact agree_scanLines_delete hk hsame hback

theorem agree_explain_delete (inc : Includes ε) (request : Request) (h : f.Redundant i)
    (hg : f.deleteLine (.whole i) = .ok g) {files files' : List PolicyFile}
    (hfiles : List.Forall₂ (fun a b => b = a ∨ (a = f ∧ b = g)) files files') :
    Agree (Match.Follows f.name (i + 1)) (explain inc request files)
      (explain inc request files') := by
  induction hfiles with
  | nil => exact .nothing
  | @cons a b _ _ hab _ ih =>
    have hfile : Agree (Match.Follows f.name (i + 1)) (scanFile inc request a)
        (scanFile inc request b) := by
      rcases hab with rfl | ⟨rfl, rfl⟩
      · exact Agree.refl (Match.Follows.refl f.name (i + 1)) _
      · exact agree_scanFile_delete inc request h hg
    rw [explain, explain]
    exact ih.andThen hfile

end Evaluation

/-- **A rule that is told to be redundant never decides.** Its line can be deleted, and wherever
the file is replaced by the one without it, each request is decided as before: by the same rule of
the same file, or by none, or with the same failure of an include line. -/
theorem explain_deleteLine {f : PolicyFile} {i : Nat} (h : f.Redundant i) :
    ∃ g, f.deleteLine (.whole i) = .ok g ∧ ∀ {ε : Type} (inc : Includes ε) (request : Request)
      {files files' : List PolicyFile},
      List.Forall₂ (fun a b => b = a ∨ (a = f ∧ b = g)) files files' →
        (explain inc request files').map (Option.map Match.action) =
          (explain inc request files).map (Option.map Match.action) ∧
        Evaluation.Agree (Match.Follows f.name (i + 1)) (explain inc request files)
          (explain inc request files') := by
  obtain ⟨g, hg⟩ := h.deleteLine_eq_ok
  refine ⟨g, hg, fun {ε} inc request {files files'} hfiles => ?_⟩
  have hagree := Evaluation.agree_explain_delete inc request h hg hfiles
  exact ⟨hagree.map_action, hagree⟩

/-! ## a deletion above the line that decides -/

def shadowedFile : PolicyFile :=
  .ofText "30-user" true ("qubes.Gpg * work vault allow\n!include extra\n" ++
    "qubes.Gpg  *  work vault allow\n* * work @anyvm deny\n")

def gpgAllow : Rule :=
  ⟨.name "qubes.Gpg", .any, .literal "work", .literal "vault", .grant .allow none []⟩

def workDeny : Rule := ⟨.wildcard, .any, .literal "work", .anyVM, .deny⟩

theorem lines_shadowedFile : shadowedFile.lines =
    [⟨"qubes.Gpg * work vault allow", 1, .rule gpgAllow⟩,
      ⟨"!include extra", 2, .includes .file "extra"⟩,
      ⟨"qubes.Gpg  *  work vault allow", 3, .rule gpgAllow⟩,
      ⟨"* * work @anyvm deny", 4, .rule workDeny⟩] := by
  decide +kernel

def backupRequest : Request :=
  ⟨"qubes.Gpg", "", ⟨"work", none, []⟩, .qube ⟨"backup", none, []⟩⟩

theorem explain_shadowedFile :
    explain (Includes.ofFiles (ε := Fault) []) backupRequest [shadowedFile] =
      .ok (some ⟨workDeny, 4, "30-user"⟩) := by
  have hextra : (Includes.ofFiles (ε := Fault) []).resolve .file "extra" = .ok [] := rfl
  obtain ⟨hgpg, hwork⟩ : gpgAllow.covers backupRequest = false ∧
      workDeny.covers backupRequest = true := by
    decide
  have hname : shadowedFile.name = "30-user" := rfl
  simp [explain, Evaluation.scanFile, Evaluation.scanLines_cons, Evaluation.scanLine,
    Evaluation.scanFiles, lines_shadowedFile, hextra, hgpg, hwork, hname, Except.bind]

theorem explain_deleteLine_shadowedFile : shadowedFile.Redundant 2 ∧
    ∃ g m, shadowedFile.deleteLine (.whole 2) = .ok g ∧
      explain (Includes.ofFiles (ε := Fault) []) backupRequest [g] = .ok (some m) ∧
      m.rule = workDeny ∧ m.file = "30-user" := by
  have hredundant : shadowedFile.Redundant 2 := by
    unfold PolicyFile.Redundant PolicyFile.diagnostics
    rw [lines_shadowedFile]
    decide +kernel
  refine ⟨hredundant, ?_⟩
  obtain ⟨g, hg, h⟩ := explain_deleteLine hredundant
  have hfiles : List.Forall₂ (fun a b => b = a ∨ (a = shadowedFile ∧ b = g)) [shadowedFile] [g] :=
    .cons (.inr ⟨rfl, rfl⟩) .nil
  obtain ⟨-, hagree⟩ := h (Includes.ofFiles (ε := Fault) []) backupRequest hfiles
  rw [explain_shadowedFile] at hagree
  generalize hm : explain (Includes.ofFiles []) backupRequest [g] = found at hagree
  cases hagree with
  | @finds _ m hfollows => exact ⟨g, m, hg, hm, hfollows.rule, hfollows.file⟩

end QubePolicy
