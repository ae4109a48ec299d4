import QubePolicy.Proofs.Store.Includes
import QubePolicy.Proofs.Store.Swapping

/-!
# Names and places

The names of policy files and the direct children of the two directories that may be policy files
are the same thing, and the store goes nowhere else.

* `Store.Placed`              the place of a name: `NAME.policy` in the policy directory, `NAME` in
                              the include directory;
* `Store.path_eq_ok_iff`      the place that the store works out;
* `Path.relative`             the text that leads from one place to another;
* `Store.told?`, `Store.nameAt?_eq_told?`   the name of a place is told by the two texts that lead
                              to it from the directories;
* `Store.nameAt?_eq_some_iff` the path of an include line names a file exactly if it leads to it;
* `Store.AlikeAtFiles`        two disks with the same policy files; they answer alike, whatever else
                              is on them;
* `Store.look_replace_of_not_contains`   and nothing but the file and what is above it changes;
* `Store.names_and_places`    all this together.
-/

namespace QubePolicy

/-! ## ways between places -/

namespace Path

variable {base p : Path} {file : String} {names lead : List String}

/-- The pieces that lead from one list of names to another: back to where they part, then on. -/
def route : List String → List String → List String
  | a :: lead, b :: names =>
    if a = b then route lead names else (a :: lead).map (fun _ => "..") ++ b :: names
  | lead, names => lead.map (fun _ => "..") ++ names

def relative (base p : Path) : String := "/".intercalate (route base.names p.names)

theorem route_append (lead names : List String) : route lead (lead ++ names) = names := by
  induction lead with
  | nil => cases names <;> rfl
  | cons a lead ih =>
    rw [List.cons_append, route, if_pos rfl]
    exact ih

theorem route_cases (lead names : List String) :
    (∃ rest, names = lead ++ rest ∧ route lead names = rest) ∨
      ∃ rest, route lead names = ".." :: rest := by
  induction lead generalizing names with
  | nil => exact .inl ⟨names, rfl, by cases names <;> rfl⟩
  | cons a lead ih =>
    cases names with
    | nil => exact .inr ⟨_, rfl⟩
    | cons b names =>
      rw [route]
      split
      · next hab =>
        rcases ih names with ⟨rest, hnames, hroute⟩ | hback
        · exact .inl ⟨rest, by rw [hnames, hab, List.cons_append], hroute⟩
        · exact .inr hback
      · exact .inr ⟨_, rfl⟩

theorem relative_child (base : Path) (file : String) : base.relative (base.child file) = file := by
  rw [relative, child, route_append, String.intercalate_singleton]

theorem slash_mem_intercalate (a b : String) (pieces : List String) :
    '/' ∈ ("/".intercalate (a :: b :: pieces)).toList := by
  rw [String.intercalate_cons_cons]
  simp

theorem eq_child_of_relative (h : base.relative p = file) (hne : file ≠ "") (hback : file ≠ "..")
    (hslash : '/' ∉ file.toList) : p = base.child file := by
  subst h
  rcases route_cases base.names p.names with ⟨rest, hnames, hroute⟩ | ⟨rest, hroute⟩ <;>
    rw [relative, hroute] at hne hback hslash
  · match rest with
    | [] => exact absurd rfl hne
    | [name] =>
      rw [relative, hroute, String.intercalate_singleton]
      exact congrArg Path.mk hnames
    | a :: b :: rest => exact absurd (slash_mem_intercalate a b rest) hslash
  · match rest with
    | [] => exact absurd rfl hback
    | b :: rest => exact absurd (slash_mem_intercalate ".." b rest) hslash

theorem below?_eq_some_iff {rest : List String} :
    base.below? p = some rest ↔ p.names = base.names ++ rest := Text.rest?_eq_some_iff

theorem eq_child_iff : p = base.child file ↔ p.names = base.names ++ [file] :=
  ⟨congrArg Path.names, congrArg Path.mk⟩

end Path

namespace Text

theorem ne_empty_of_isFileName {s : String} (h : isFileName s = true) : s ≠ "" := by
  rintro rfl
  cases h

theorem not_mem_of_isFileName {s : String} {c : Char} (h : isFileName s = true)
    (hword : isWordChar c = false) : c ∉ s.toList := fun hc => by
  rw [not_isFileName_of_mem hc hword] at h
  cases h

end Text

namespace Store

variable {s : Store} {d d' : Disk} {p q : Path} {name other base text : String}

/-! ## places of names -/

/-- The place of a policy file: a direct child of one of the two directories. -/
inductive Placed (s : Store) : String → Path → Prop
  | main {name : String} : Text.isFileName name = true →
      Placed s name (s.directory.child (name ++ ".policy"))
  | included {base : String} : Text.isFileName base = true →
      Placed s ("include/" ++ base) (s.includeDirectory.child base)

/-- **The place that the store works out is the place of the name.** -/
theorem path_eq_ok_iff : s.path name = .ok p ↔ s.Placed name p := by
  constructor
  · intro h
    rcases path_eq_ok h with ⟨-, base, rfl, hbase, rfl⟩ | ⟨-, hname, rfl⟩
    · exact .included hbase
    · exact .main hname
  · intro h
    cases h with
    | main hname =>
      have hnone : Text.after? "include/" name = none := by
        have hmain := PolicyName.not_isInclude hname
        rwa [PolicyName.isInclude, Option.isSome_eq_false_iff, Option.isNone_iff_eq_none] at hmain
      have hvalid : PolicyName.isValid name = true := by
        rw [PolicyName.isValid, PolicyName.base, hnone]
        exact hname
      rw [path, if_pos hvalid, hnone]
    | @included base hbase =>
      have hafter : Text.after? "include/" ("include/" ++ base) = some base :=
        Text.after?_eq_some_iff.mpr rfl
      have hvalid : PolicyName.isValid ("include/" ++ base) = true := by
        rw [PolicyName.isValid, PolicyName.base, hafter]
        exact hbase
      rw [path, if_pos hvalid, hafter]

theorem isValid_of_path (h : s.path name = .ok p) : PolicyName.isValid name = true := by
  unfold path at h
  split at h
  · next hvalid => exact hvalid
  · cases h

theorem Placed.unique (h : s.Placed name p) (hother : s.Placed other p) : name = other :=
  path_inj (path_eq_ok_iff.mpr h) (path_eq_ok_iff.mpr hother)

/-! ## names of places -/

theorem mainName?_eq_some_iff : nameAt?.mainName? s p = some name ↔
    Text.isFileName name = true ∧ p = s.directory.child (name ++ ".policy") := by
  have hfile (file : String) : (Text.before? ".policy" file).filter Text.isFileName = some name ↔
      file = name ++ ".policy" ∧ Text.isFileName name = true := by
    rw [Option.filter_eq_some_iff, Text.before?_eq_some_iff]
  rw [Path.eq_child_iff, nameAt?.mainName?]
  split
  · next file hfileBelow =>
    rw [hfile, Path.below?_eq_some_iff.mp hfileBelow]
    constructor
    · rintro ⟨rfl, hname⟩
      exact ⟨hname, rfl⟩
    · rintro ⟨hname, hsame⟩
      exact ⟨List.singleton_inj.mp (List.append_cancel_left hsame), hname⟩
  · next hnone =>
    refine ⟨nofun, fun ⟨_, hp⟩ => absurd (Path.below?_eq_some_iff.mpr hp) (hnone _)⟩

theorem nameAt?_of_included (hbase : Text.isFileName base = true)
    (hp : s.directory.resolve text = s.includeDirectory.child base) :
    s.nameAt? text = some ("include/" ++ base) := by
  have hbelow : s.includeDirectory.below? (s.includeDirectory.child base) = some [base] :=
    Path.below?_eq_some_iff.mpr rfl
  unfold nameAt?
  simp only [hp, hbelow]
  exact if_pos hbase

theorem nameAt?_of_not_included (hp : ∀ base, Text.isFileName base = true →
      s.directory.resolve text ≠ s.includeDirectory.child base) :
    s.nameAt? text = nameAt?.mainName? s (s.directory.resolve text) := by
  unfold nameAt?
  simp only
  split
  · next base hbelow =>
    exact if_neg fun hbase =>
      hp base hbase (Path.eq_child_iff.mpr (Path.below?_eq_some_iff.mp hbelow))
  · rfl

/-- **The path of an include line names a policy file exactly if it leads to it.** -/
theorem nameAt?_eq_some_iff :
    s.nameAt? text = some name ↔ s.Placed name (s.directory.resolve text) := by
  by_cases hincluded : ∃ base, Text.isFileName base = true ∧
      s.directory.resolve text = s.includeDirectory.child base
  · obtain ⟨base, hbase, hp⟩ := hincluded
    rw [nameAt?_of_included hbase hp, Option.some_inj, hp]
    constructor
    · rintro rfl
      exact .included hbase
    · exact fun hplaced => (Placed.included hbase).unique hplaced
  · rw [nameAt?_of_not_included fun base hbase hp => hincluded ⟨base, hbase, hp⟩,
      mainName?_eq_some_iff]
    constructor
    · rintro ⟨hname, hp⟩
      rw [hp]
      exact .main hname
    · intro hplaced
      generalize s.directory.resolve text = p at hplaced hincluded
      cases hplaced with
      | main hname => exact ⟨hname, rfl⟩
      | @included base hbase => exact absurd ⟨base, hbase, rfl⟩ hincluded

/-- The name that is told by the texts that lead to a place from the two directories: a word from
the include directory, else a word with the extension from the policy directory. -/
def told? (s : Store) (p : Path) : Option String :=
  let included := s.includeDirectory.relative p
  if (Text.after? ".." included).isNone && !Path.isAbsolute included &&
      Text.isFileName included then
    some ("include/" ++ included)
  else (Text.before? ".policy" (s.directory.relative p)).filter Text.isFileName

theorem told?_child (hbase : Text.isFileName base = true) :
    s.told? (s.includeDirectory.child base) = some ("include/" ++ base) := by
  have hback : Text.after? ".." base = none := by
    refine Option.eq_none_iff_forall_ne_some.mpr fun rest hrest => ?_
    refine Text.not_mem_of_isFileName (c := '.') hbase (by decide) ?_
    rw [Text.after?_eq_some_iff.mp hrest]
    simp
  have habsolute : Path.isAbsolute base = false := by
    rw [Path.isAbsolute, beq_eq_false_iff_ne]
    intro hhead
    exact Text.not_mem_of_isFileName hbase (by decide) (List.mem_of_mem_head? hhead)
  rw [told?, Path.relative_child, hback, habsolute, hbase]
  rfl

/-- **The name of a place is the name that the texts tell.** -/
theorem nameAt?_eq_told? (s : Store) (text : String) :
    s.nameAt? text = s.told? (s.directory.resolve text) := by
  by_cases hincluded : ∃ base, Text.isFileName base = true ∧
      s.directory.resolve text = s.includeDirectory.child base
  · obtain ⟨base, hbase, hp⟩ := hincluded
    rw [nameAt?_of_included hbase hp, hp, told?_child hbase]
  · have hword :
        Text.isFileName (s.includeDirectory.relative (s.directory.resolve text)) = false := by
      rw [← Bool.not_eq_true]
      intro hbase
      refine hincluded ⟨_, hbase, Path.eq_child_of_relative rfl (Text.ne_empty_of_isFileName hbase)
        (fun hback => ?_) (Text.not_mem_of_isFileName hbase (by decide))⟩
      rw [hback] at hbase
      cases hbase
    rw [nameAt?_of_not_included fun base hbase hp => hincluded ⟨base, hbase, hp⟩, told?, hword,
      Bool.and_false, if_neg Bool.false_ne_true]
    refine Option.ext fun name => ?_
    rw [mainName?_eq_some_iff, Option.filter_eq_some_iff, Text.before?_eq_some_iff, and_comm]
    refine and_congr_left fun hname => ⟨fun hp => ?_, fun hrelative => ?_⟩
    · rw [hp, Path.relative_child]
    · refine Path.eq_child_of_relative hrelative ?_ ?_ ?_
      · intro hnil
        simpa using congrArg String.toList hnil
      · intro hback
        have hlength := congrArg String.length hback
        rw [String.length_append, show ".policy".length = 7 by decide,
          show "..".length = 2 by decide] at hlength
        omega
      · rw [String.toList_append, List.mem_append, not_or]
        exact ⟨Text.not_mem_of_isFileName hname (by decide), by decide⟩

/-! ## reading -/

/-- Every policy file is read alike on the two disks. -/
def AlikeAtFiles (s : Store) (d d' : Disk) : Prop :=
  ∀ name p, s.Placed name p → d'.read p = d.read p

/-- Above the policy files, there are files where there are some on the other disk. -/
def AlikeAbove (s : Store) (d d' : Disk) : Prop :=
  ∀ name p, s.Placed name p → ∀ q : Path, q.Contains p.parent →
    (d'.bytes? q).isSome = (d.bytes? q).isSome

namespace AlikeAtFiles

theorem read (h : s.AlikeAtFiles d d') (hp : s.path name = .ok p) : d'.read p = d.read p :=
  h name p (path_eq_ok_iff.mp hp)

theorem exists? (h : s.AlikeAtFiles d d') (name : String) :
    s.exists? d' name = s.exists? d name :=
  exists?_congr fun _ hp => Disk.look_of_read (h.read hp)

theorem get (h : s.AlikeAtFiles d d') (name : String) : s.get d' name = s.get d name := by
  cases hp : s.path name with
  | error e => simp only [Store.get, hp, bind, Except.bind]
  | ok p => simp only [Store.get, hp, bind, Except.bind, Disk.readText, h.read hp]

theorem check (h : s.AlikeAtFiles d d') (name : String) (expected : Version) :
    s.check d' name expected = s.check d name expected := by
  unfold Store.check
  rw [h.exists?, h.get]

/-- **An include line is answered alike.** -/
theorem file (h : s.AlikeAtFiles d d') (opened : List PolicyFile) (allowIncludes : Bool)
    (path : String) : (s.includes d' opened allowIncludes).file path =
      (s.includes d opened allowIncludes).file path := by
  simp only [includes, load, h.exists?, h.get]

/-- **What replacing comes to is told alike.** -/
theorem replace (h : s.AlikeAtFiles d d') (habove : s.AlikeAbove d d') (name text : String)
    (expected : Version) :
    (s.replace d' name text expected).1 = (s.replace d name text expected).1 := by
  have hsame := h.check name expected
  cases hcheck : s.check d name expected with
  | error e => rw [replace_of_check_error hcheck, replace_of_check_error (hsame.trans hcheck)]
  | ok u =>
    obtain ⟨p, hp, -⟩ := check_eq_ok_iff.mp hcheck
    have hobstacle := Disk.obstacle?_congr (Disk.look_of_read (h.read hp))
      (habove name p (path_eq_ok_iff.mp hp))
    rw [replace_fst hp, replace_fst hp, hsame, hobstacle]

end AlikeAtFiles

/-! ## writing -/

/-- **Replacing changes nothing but the file**, and what directories are made above it. -/
theorem look_replace_of_not_contains {expected : Version}
    (hq : ∀ p, s.Placed name p → ¬q.Contains p) :
    (s.replace d name text expected).2.look q = d.look q := by
  rcases hreplace : s.replace d name text expected with ⟨e | v, after⟩
  · rcases replace_eq_error hreplace with ⟨-, rfl⟩ | ⟨p, cause, hp, -, hwrite⟩
    · rfl
    · exact (untouched_writeAt hwrite).places q fun hcontains =>
        hq p (path_eq_ok_iff.mp hp) (hcontains.trans (List.dropLast_prefix _))
  · obtain ⟨p, hp, -, -, hwrite⟩ := replace_eq_ok hreplace
    exact look_writeAt_of_not_contains hwrite (hq p (path_eq_ok_iff.mp hp))

theorem bytes?_replace_of_not_placed {expected : Version} (hq : ¬s.Placed name q) :
    (s.replace d name text expected).2.bytes? q = d.bytes? q := by
  rcases hreplace : s.replace d name text expected with ⟨e | v, after⟩
  · rcases replace_eq_error hreplace with ⟨-, rfl⟩ | ⟨p, cause, -, -, hwrite⟩
    · rfl
    · exact (untouched_writeAt hwrite).files q
  · obtain ⟨p, hp, -, -, hwrite⟩ := replace_eq_ok hreplace
    refine (bytes?_writeAt hwrite q).trans (if_neg fun hsame => hq ?_)
    rw [hsame]
    exact path_eq_ok_iff.mp hp

/-! ## names and places -/

/-- **Policy names and their places are the same thing, and the store stays with them.** The path of
an include line, told by texts, names a file exactly if the file lies where the path leads to; two
names never share a place. What is stored, read and found at an include line depends on nothing on
the disk but the policy files, what replacing comes to on nothing else but where files are above
them, and replacing changes no file but the one that it names. -/
theorem names_and_places (s : Store) :
    (∀ text, s.nameAt? text = s.told? (s.directory.resolve text) ∧
      ∀ name, s.nameAt? text = some name ↔
        PolicyName.isValid name = true ∧ s.path name = .ok (s.directory.resolve text)) ∧
    (∀ name p, s.path name = .ok p ↔ s.Placed name p) ∧
    (∀ name other p, s.Placed name p → s.Placed other p → name = other) ∧
    (∀ d d', s.AlikeAtFiles d d' → ∀ name,
      s.exists? d' name = s.exists? d name ∧ s.get d' name = s.get d name ∧
      (∀ opened allowIncludes path, (s.includes d' opened allowIncludes).file path =
        (s.includes d opened allowIncludes).file path) ∧
      (s.AlikeAbove d d' → ∀ text expected,
        (s.replace d' name text expected).1 = (s.replace d name text expected).1)) ∧
    ∀ d name text expected q,
      ((s.replace d name text expected).2.bytes? q ≠ d.bytes? q → s.Placed name q) ∧
      ((s.replace d name text expected).2.look q ≠ d.look q →
        ∃ p, s.Placed name p ∧ q.Contains p) := by
  refine ⟨fun text => ⟨s.nameAt?_eq_told? text, fun name => ?_⟩, fun _ _ => path_eq_ok_iff,
    fun _ _ _ => Placed.unique, fun d d' h name => ⟨h.exists? name, h.get name, h.file,
      fun habove => h.replace habove name⟩, fun d name text expected q => ⟨fun hbytes => ?_,
      fun hlook => ?_⟩⟩
  · rw [nameAt?_eq_some_iff, path_eq_ok_iff, iff_and_self]
    exact fun hplaced => isValid_of_path (path_eq_ok_iff.mpr hplaced)
  · by_contra hq
    exact hbytes (bytes?_replace_of_not_placed hq)
  · by_contra hq
    exact hlook (look_replace_of_not_contains fun p hp hcontains => hq ⟨p, hp, hcontains⟩)

theorem names_and_places_nested : nested.nameAt? "../policy//include/./web" = some "include/web" ∧
    nested.nameAt? "include/../../main.policy" = none ∧
    (let outside : Disk := ⟨.directory [("etc", .directory [("main.policy", .file [])])]⟩
     nested.AlikeAtFiles .blank outside ∧ nested.AlikeAbove .blank outside ∧
      nested.get outside "main" = nested.get .blank "main" ∧
      (nested.replace outside "main" "" .new).1 = (nested.replace .blank "main" "" .new).1) := by
  obtain ⟨hnames, -, -, hreads, -⟩ := names_and_places nested
  have hfiles : nested.AlikeAtFiles .blank
      ⟨.directory [("etc", .directory [("main.policy", .file [])])]⟩ := by
    intro name p hp
    cases hp <;> rfl
  have habove : nested.AlikeAbove .blank
      ⟨.directory [("etc", .directory [("main.policy", .file [])])]⟩ := by
    intro name p hp q hq
    have hprefix : q.names ∈ ["etc", "policy", "include"].inits := by
      rw [List.mem_inits]
      cases hp with
      | main => exact hq.trans ⟨["include"], by simp [nested, Path.parent_child]⟩
      | included => exact hq.trans (by rw [Path.parent_child]; exact List.prefix_refl _)
    obtain ⟨names⟩ := q
    simp only [List.inits, List.map, List.mem_cons, List.not_mem_nil, or_false] at hprefix
    rcases hprefix with rfl | rfl | rfl | rfl <;> rfl
  obtain ⟨-, hget, -, hreplace⟩ := hreads _ _ hfiles "main"
  refine ⟨((hnames _).2 _).mpr ⟨by decide, by decide +kernel⟩, ?_, hfiles, habove, hget,
    hreplace habove "" .new⟩
  rw [(hnames _).1]
  decide +kernel

end Store

end QubePolicy
