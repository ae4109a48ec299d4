import QubePolicy.Proofs.Action.Clauses
import QubePolicy.Proofs.Evaluation.Requests
import QubePolicy.CommandLine

/-!
# What the arguments of an evaluation mean

The arguments are read as items, one after another.  Their order does not matter beyond that of the
positional ones, and of the others only what they say of the qubes in the request.

* `CommandLine.Item`        a directory, a tag or a type of a qube, or a positional argument;
* `CommandLine.Reads`       what items arguments are read as;
* `CommandLine.evaluateArguments_eq_ok_iff`   arguments are in order if they are read as items, and
                            their options are those of the items;
* `CommandLine.Names`       the qubes that the positional arguments name;
* `CommandLine.SameMeaning`   items that say the same of these qubes;
* `CommandLine.evaluate_by_meaning`   then they come to the same decision, told in the same words.
-/

namespace QubePolicy.CommandLine

/-! ## items -/

inductive Item where
  | directory (path : String)
  | tag (qube tag : String)
  | type (qube type : String)
  | positional (text : String)
  deriving DecidableEq

/-- The argument is cut at its first equals sign, and neither side is empty. -/
structure Assigns (argument qube text : String) : Prop where
  argument : argument = qube ++ "=" ++ text
  first : '=' ∉ qube.toList
  qube : qube ≠ ""
  text : text ≠ ""

/-- What arguments are read as. A flag takes the argument behind it, whatever that is; an argument
that is no flag is positional. -/
inductive Reads : List String → List Item → Prop
  | nil : Reads [] []
  | directory {path args items} : Reads args items →
      Reads ("--policy-dir" :: path :: args) (.directory path :: items)
  | tag {argument qube tag args items} : Assigns argument qube tag → Reads args items →
      Reads ("--tag" :: argument :: args) (.tag qube tag :: items)
  | type {argument qube type args items} : Assigns argument qube type → Reads args items →
      Reads ("--type" :: argument :: args) (.type qube type :: items)
  | positional {text args items} : isFlag text = false → Reads args items →
      Reads (text :: args) (.positional text :: items)

/-! ## options -/

def EvaluateOptions.add (o : EvaluateOptions) : Item → EvaluateOptions
  | .directory path => { o with directory := some path }
  | .tag qube tag => { o with tags := o.tags ++ [(qube, tag)] }
  | .type qube type => { o with types := o.types ++ [(qube, type)] }
  | .positional text => { o with positional := o.positional ++ [text] }

/-- An argument is cut as a token of a rule is, except that something has to be behind the equals
sign. -/
theorem assignment_eq_ok_iff_token {flag argument qube text : String} :
    assignment flag argument = .ok (qube, text) ↔
      (Token.mk argument 0).assignment? = some (qube, text) ∧ text ≠ "" := by
  unfold assignment Token.assignment?
  simp only
  cases argument.toList.takeWhile (· != '=') with
  | nil => simp
  | cons c left =>
    cases argument.toList.dropWhile (· != '=') with
    | nil => simp
    | cons equals right =>
      cases right with
      | nil => simp
      | cons d right =>
        simp only [Except.ok.injEq, Option.some.injEq, Prod.mk.injEq, iff_self_and, and_imp]
        rintro - rfl
        simp [String.ofList_eq_empty_iff]

theorem assignment_eq_ok_iff {flag argument qube text : String} :
    assignment flag argument = .ok (qube, text) ↔ Assigns argument qube text := by
  rw [assignment_eq_ok_iff_token, Token.assignment?_eq_some_iff]
  constructor
  · rintro ⟨⟨⟨hne, hfirst⟩, hvalue⟩, htext⟩
    exact ⟨hvalue, hfirst, hne, htext⟩
  · rintro ⟨hvalue, hfirst, hne, htext⟩
    exact ⟨⟨⟨hne, hfirst⟩, hvalue⟩, htext⟩

theorem isFlag_flags : isFlag "--policy-dir" = true ∧ isFlag "--tag" = true ∧
    isFlag "--type" = true := by
  decide +kernel

variable {o before : EvaluateOptions} {args : List String} {items : List Item} {text : String}

theorem evaluateArguments_positional (h : isFlag text = false) (args : List String) :
    evaluateArguments before (text :: args) =
      evaluateArguments (before.add (.positional text)) args := by
  obtain ⟨hdirectory, htag, htype⟩ := isFlag_flags
  have hne {flag : String} (hflag : isFlag flag = true) : text ≠ flag := by
    rintro rfl
    rw [hflag] at h
    cases h
  cases args with
  | nil => simp [evaluateArguments, hne hdirectory, hne htag, hne htype, h, EvaluateOptions.add]
  | cons value args =>
    rw [evaluateArguments, if_neg (hne hdirectory), if_neg (hne htag), if_neg (hne htype), h]
    rfl

/-- **Arguments are in order if they are read as items**, and their options are those of the
items. -/
theorem evaluateArguments_eq_ok_iff : evaluateArguments before args = .ok o ↔
    ∃ items, Reads args items ∧ o = items.foldl EvaluateOptions.add before := by
  constructor
  · intro h
    fun_induction evaluateArguments before args with
    | case1 before =>
      cases h
      exact ⟨[], .nil, rfl⟩
    | case2 | case3 | case7 | case9 | case10 => cases h
    | case4 before argument _ hflag =>
      cases h
      exact ⟨[.positional argument], .positional (Bool.eq_false_iff.mpr hflag) .nil, rfl⟩
    | case5 before value rest ih =>
      obtain ⟨items, hreads, ho⟩ := ih h
      exact ⟨.directory value :: items, .directory hreads, ho⟩
    | case6 before value rest tag _ hassign ih =>
      obtain ⟨items, hreads, ho⟩ := ih h
      exact ⟨.tag tag.1 tag.2 :: items, .tag (assignment_eq_ok_iff.mp hassign) hreads, ho⟩
    | case8 before value rest type _ _ hassign ih =>
      obtain ⟨items, hreads, ho⟩ := ih h
      exact ⟨.type type.1 type.2 :: items, .type (assignment_eq_ok_iff.mp hassign) hreads, ho⟩
    | case11 before argument value rest _ _ _ hflag ih =>
      obtain ⟨items, hreads, ho⟩ := ih h
      exact ⟨.positional argument :: items,
        .positional (Bool.eq_false_iff.mpr hflag) hreads, ho⟩
  · rintro ⟨items, hreads, rfl⟩
    induction hreads generalizing before with
    | nil => rfl
    | directory _ ih => exact ih
    | tag hassign _ ih =>
      rw [evaluateArguments, if_neg (by decide), if_pos rfl, assignment_eq_ok_iff.mpr hassign]
      exact ih
    | type hassign _ ih =>
      rw [evaluateArguments, if_neg (by decide), if_neg (by decide), if_pos rfl,
        assignment_eq_ok_iff.mpr hassign]
      exact ih
    | positional hflag _ ih =>
      rw [evaluateArguments_positional hflag]
      exact ih

/-! ## what items say -/

namespace Item

def directory? : Item → Option String
  | .directory path => some path
  | _ => none

def positional? : Item → Option String
  | .positional text => some text
  | _ => none

def tag? : Item → Option (String × String)
  | .tag qube given => some (qube, given)
  | _ => none

def type? : Item → Option (String × String)
  | .type qube given => some (qube, given)
  | _ => none

def typeOf? (qube : String) (i : Item) : Option String :=
  i.type?.bind fun (name, given) => if name = qube then some given else none

end Item

def positionals (items : List Item) : List String := items.filterMap Item.positional?

def lastDirectory (items : List Item) : Option String := items.reverse.findSome? Item.directory?

def lastType (items : List Item) (qube : String) : Option String :=
  items.reverse.findSome? (Item.typeOf? qube)

def options (items : List Item) : EvaluateOptions :=
  items.foldl EvaluateOptions.add ⟨none, [], [], []⟩

theorem foldl_add (items : List Item) (o : EvaluateOptions) :
    items.foldl EvaluateOptions.add o =
      ⟨(lastDirectory items).or o.directory, o.tags ++ items.filterMap Item.tag?,
        o.types ++ items.filterMap Item.type?, o.positional ++ positionals items⟩ := by
  induction items generalizing o with
  | nil => simp [lastDirectory, positionals]
  | cons item items ih =>
    rw [List.foldl_cons, ih]
    cases item <;>
      simp [EvaluateOptions.add, lastDirectory, positionals, List.filterMap_cons, Item.directory?,
        Item.tag?, Item.type?, Item.positional?, List.findSome?_append]

theorem options_eq (items : List Item) : options items =
    ⟨lastDirectory items, items.filterMap Item.tag?, items.filterMap Item.type?,
      positionals items⟩ := by
  rw [options, foldl_add, Option.or_none]
  rfl

theorem lookup_types (items : List Item) (qube : String) :
    (items.filterMap Item.type?).reverse.lookup qube = lastType items qube := by
  induction items with
  | nil => rfl
  | cons item items ih =>
    rw [lastType, List.reverse_cons, List.findSome?_append, ← lastType, ← ih]
    cases item with
    | type name given =>
      by_cases hname : name = qube
      · simp [Item.typeOf?, Item.type?, List.lookup_append, hname]
      · have hne : (qube == name) = false := beq_eq_false_iff_ne.mpr (Ne.symm hname)
        simp [Item.typeOf?, Item.type?, List.lookup_append, List.lookup_cons, hname, hne]
    | _ => simp [Item.typeOf?, Item.type?, List.filterMap_cons]

theorem mem_tags {qube tag : String} :
    tag ∈ ((options items).qube qube).tags ↔ .tag qube tag ∈ items := by
  rw [options_eq, EvaluateOptions.qube, List.mem_map]
  constructor
  · rintro ⟨⟨name, given⟩, hgiven, rfl⟩
    obtain ⟨hmem, hname⟩ := List.mem_filter.mp hgiven
    obtain ⟨item, hitem, htag⟩ := List.mem_filterMap.mp hmem
    cases item <;> simp_all [Item.tag?]
  · intro hmem
    exact ⟨(qube, tag), List.mem_filter.mpr ⟨List.mem_filterMap.mpr ⟨_, hmem, rfl⟩, by simp⟩, rfl⟩

/-! ## meaning -/

/-- The qubes that positional arguments name: the source, and the destination or the template of
the new disposable. -/
inductive Names : List String → String → Prop
  | source {service argument source destination : String} : Text.after? "@" source = none →
      Names [service, argument, source, destination] source
  | destination {service argument source destination : String} :
      Text.after? "@" destination = none →
      Names [service, argument, source, destination] destination
  | template {service argument source template : String} :
      Names [service, argument, source, "@dispvm:" ++ template] template

/-- Items that say the same: they have the same positional arguments, the same last directory, and,
for each qube that is named, the same last type and the same tags. -/
structure SameMeaning (items items' : List Item) : Prop where
  positional : positionals items' = positionals items
  directory : lastDirectory items' = lastDirectory items
  types : ∀ qube, Names (positionals items) qube →
    lastType items' qube = lastType items qube
  tags : ∀ qube, Names (positionals items) qube →
    ∀ tag, .tag qube tag ∈ items' ↔ .tag qube tag ∈ items

variable {items' : List Item} {service argument source destination : String}

theorem SameMeaning.alike_qube (h : SameMeaning items items') {qube : String}
    (hnames : Names (positionals items) qube) :
    ((options items).qube qube).Alike ((options items').qube qube) where
  name := rfl
  type := by
    show (options items').types.reverse.lookup qube = (options items).types.reverse.lookup qube
    rw [options_eq, options_eq, lookup_types, lookup_types]
    exact h.types qube hnames
  tags tag := mem_tags.trans ((h.tags qube hnames tag).trans mem_tags.symm)

inductive SameResult {α : Type} (R : α → α → Prop) :
    Except UsageFault α → Except UsageFault α → Prop
  | fails (e : UsageFault) : SameResult R (.error e) (.error e)
  | ok {a a' : α} : R a a' → SameResult R (.ok a) (.ok a')

theorem SameResult.bind {α β : Type} {R : α → α → Prop} {S : β → β → Prop}
    {x x' : Except UsageFault α} {f f' : α → Except UsageFault β} (hx : SameResult R x x')
    (hf : ∀ a a', R a a' → SameResult S (f a) (f' a')) :
    SameResult S (x >>= f) (x' >>= f') := by
  cases hx with
  | fails e => exact .fails e
  | ok h => exact hf _ _ h

section

variable (h : SameMeaning items items')
  (hpositionals : positionals items = [service, argument, source, destination])

include h hpositionals

theorem SameMeaning.sameSource :
    SameResult Qube.Alike ((options items).source source) ((options items').source source) := by
  rw [EvaluateOptions.source, EvaluateOptions.source]
  cases hsource : Text.after? "@" source with
  | some rest => exact .fails _
  | none =>
    refine .ok (h.alike_qube ?_)
    rw [hpositionals]
    exact .source hsource

theorem SameMeaning.sameDestination : SameResult Destination.Alike
    ((options items).destination destination) ((options items').destination destination) := by
  rw [EvaluateOptions.destination, EvaluateOptions.destination]
  split
  · exact .ok .unspecified
  · split
    · exact .ok .disposable
    · cases htemplate : Text.after? "@dispvm:" destination with
      | some template =>
        refine .ok (.template (h.alike_qube ?_))
        rw [hpositionals, Text.after?_eq_some_iff.mp htemplate]
        exact .template
      | none =>
        cases hqube : Text.after? "@" destination with
        | some rest => exact .fails _
        | none =>
          refine .ok (.qube (h.alike_qube ?_))
          rw [hpositionals]
          exact .destination hqube

theorem SameMeaning.sameRequest : SameResult Request.Alike
    ((options items).request service argument source destination)
    ((options items').request service argument source destination) := by
  rw [EvaluateOptions.request, EvaluateOptions.request]
  refine (h.sameSource hpositionals).bind fun _ _ hsource => ?_
  refine (h.sameDestination hpositionals).bind fun _ _ hdestination => ?_
  exact .ok ⟨rfl, rfl, hsource, hdestination⟩

end

/-! ## evaluation -/

/-- **Alike requests come to the same answer**, told in the same words. -/
theorem evaluateRequest_of_alike {request request' : Request} (halike : request.Alike request')
    (s : Store) (h : Host) : evaluateRequest s request' h = evaluateRequest s request h := by
  rw [evaluateRequest, evaluateRequest]
  cases mainFiles s h.disk with
  | error e => rfl
  | ok files => simp only [halike.explain_eq, halike.decision_eq]

theorem run_evaluate (home : String) (env : Environment) (args : List String) (h : Host) :
    run home env ("evaluate" :: args) h = evaluate home env args h := rfl

theorem evaluate_of_sameMeaning {args' : List String} (hreads : Reads args items)
    (hreads' : Reads args' items') (hsame : SameMeaning items items') (home : String)
    (env : Environment) (h : Host) : evaluate home env args h = evaluate home env args' h := by
  have hoptions {args : List String} {items : List Item} (hreads : Reads args items) :
      evaluateArguments ⟨none, [], [], []⟩ args = .ok (options items) :=
    evaluateArguments_eq_ok_iff.mpr ⟨items, hreads, rfl⟩
  have hpositional (items : List Item) : (options items).positional = positionals items := by
    rw [options_eq]
  have hdirectory : (options items').directory = (options items).directory := by
    rw [options_eq, options_eq]
    exact hsame.directory
  rw [evaluate, evaluate, hoptions hreads, hoptions hreads']
  dsimp only
  rw [hpositional, hpositional, hsame.positional, hdirectory]
  split
  · next service argument source destination hpositionals =>
    have hrequest := hsame.sameRequest hpositionals
    generalize (options items).request service argument source destination = r at hrequest ⊢
    generalize (options items').request service argument source destination = r' at hrequest ⊢
    cases hrequest with
    | fails e => rfl
    | ok halike => exact (evaluateRequest_of_alike halike _ h).symm
  · rfl

/-- **An evaluation depends on what its arguments mean only.** Arguments are in order just when they
are read as items. If the items of two command lines have the same positional arguments, the same
last directory, and for each qube that these name the same last type and the same tags, both end
with the same exit code and print the same: wherever the flags stand, in whatever order and however
often tags are given, and whatever is said of other qubes. -/
theorem evaluate_by_meaning :
    (∀ args, (∃ o, evaluateArguments ⟨none, [], [], []⟩ args = .ok o) ↔
      ∃ items, Reads args items) ∧
    ∀ args args' items items', Reads args items → Reads args' items' →
      SameMeaning items items' → ∀ home env h,
        run home env ("evaluate" :: args) h = run home env ("evaluate" :: args') h := by
  refine ⟨fun args => ?_, fun args args' items items' hreads hreads' hsame home env h => ?_⟩
  · constructor
    · rintro ⟨o, ho⟩
      obtain ⟨items, hreads, -⟩ := evaluateArguments_eq_ok_iff.mp ho
      exact ⟨items, hreads⟩
    · rintro ⟨items, hreads⟩
      exact ⟨_, evaluateArguments_eq_ok_iff.mpr ⟨items, hreads, rfl⟩⟩
  · rw [run_evaluate, run_evaluate]
    exact evaluate_of_sameMeaning hreads hreads' hsame home env h

/-! ## two command lines of one meaning -/

def leadingArguments : List String :=
  ["--policy-dir", "/policy", "--tag", "work=gpg", "qubes.Gpg", "--tag", "work=a=b", "+",
    "--type", "vault=AppVM", "work", "vault"]

def leadingItems : List Item :=
  [.directory "/policy", .tag "work" "gpg", .positional "qubes.Gpg", .tag "work" "a=b",
    .positional "+", .type "vault" "AppVM", .positional "work", .positional "vault"]

def trailingArguments : List String :=
  ["--policy-dir", "--tag", "qubes.Gpg", "+", "work", "--type", "vault=TemplateVM", "vault",
    "--tag", "work=a=b", "--tag", "work=gpg", "--tag", "mail=gpg", "--tag", "work=a=b",
    "--type", "vault=AppVM", "--type", "mail=AdminVM", "--policy-dir", "/policy"]

def trailingItems : List Item :=
  [.directory "--tag", .positional "qubes.Gpg", .positional "+", .positional "work",
    .type "vault" "TemplateVM", .positional "vault", .tag "work" "a=b", .tag "work" "gpg",
    .tag "mail" "gpg", .tag "work" "a=b", .type "vault" "AppVM", .type "mail" "AdminVM",
    .directory "/policy"]

theorem reads_leading : Reads leadingArguments leadingItems := by
  refine .directory <| .tag ?_ <| .positional ?_ <| .tag ?_ <| .positional ?_ <| .type ?_ <|
    .positional ?_ <| .positional ?_ .nil
  all_goals first | decide +kernel | exact ⟨by decide, by decide, by decide, by decide⟩

theorem reads_trailing : Reads trailingArguments trailingItems := by
  refine .directory <| .positional ?_ <| .positional ?_ <| .positional ?_ <| .type ?_ <|
    .positional ?_ <| .tag ?_ <| .tag ?_ <| .tag ?_ <| .tag ?_ <| .type ?_ <| .type ?_ <|
    .directory .nil
  all_goals first | decide +kernel | exact ⟨by decide, by decide, by decide, by decide⟩

theorem Names.eq_or {qube : String} (h : Names [service, argument, source, destination] qube) :
    qube = source ∨ qube = destination ∨ destination = "@dispvm:" ++ qube := by
  cases h <;> simp

theorem sameMeaning_leading : SameMeaning leadingItems trailingItems := by
  have hqubes (qube : String) (h : Names (positionals leadingItems) qube) :
      qube = "work" ∨ qube = "vault" := by
    rcases Names.eq_or h with h | h | h
    · exact .inl h
    · exact .inr h
    · have hnone : Text.after? "@dispvm:" "vault" = none := by decide +kernel
      rw [Text.after?_eq_some_iff.mpr h] at hnone
      cases hnone
  refine ⟨by decide, by decide, fun qube h => ?_, fun qube h tag => ?_⟩
  · rcases hqubes qube h with rfl | rfl <;> decide
  · rcases hqubes qube h with rfl | rfl <;> simp [leadingItems, trailingItems, or_comm]

theorem evaluate_by_meaning_leading :
    (∃ o, evaluateArguments ⟨none, [], [], []⟩ leadingArguments = .ok o) ∧
    (∃ o, evaluateArguments ⟨none, [], [], []⟩ trailingArguments = .ok o) ∧
    Reads leadingArguments leadingItems ∧ Reads trailingArguments trailingItems ∧
    SameMeaning leadingItems trailingItems ∧
    ∀ home env h, run home env ("evaluate" :: leadingArguments) h =
      run home env ("evaluate" :: trailingArguments) h :=
  ⟨(evaluate_by_meaning.1 _).mpr ⟨_, reads_leading⟩,
    (evaluate_by_meaning.1 _).mpr ⟨_, reads_trailing⟩, reads_leading, reads_trailing,
    sameMeaning_leading,
    evaluate_by_meaning.2 _ _ _ _ reads_leading reads_trailing sameMeaning_leading⟩

end QubePolicy.CommandLine
