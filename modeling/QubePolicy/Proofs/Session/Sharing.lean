import QubePolicy.Proofs.Session.Effects
import Mathlib.Data.List.Infix
import Mathlib.Data.List.Nodup
import Mathlib.Data.Set.Function
import Mathlib.Logic.Function.Basic

/-!
# Sessions that share a store

Any number of sessions work on the files of one store, one command at a time, while others change
the host as they like.

* `Workspace`, `Workspace.step`, `Workspace.run`   the sessions and their host, and what events
                          make of them;
* `Memory`                what a session remembers of a file it holds open, told from the events;
* `Workspace.memory`      the memories of all sessions after some events;
* `Workspace.Occurs`      a text that has been stored under a name or held open under it;
* `Session.Remembers`     the versions of a session are those of its memories;
* `Workspace.Remembers.run`   they are after all events;
* `Workspace.save_replaces_known`   a save only replaces what the session remembers.
-/

namespace QubePolicy

open Session (Command Reply)

/-! ## events -/

/-- Sessions and the host they share. -/
structure Workspace (ι : Type) where
  sessions : ι → Session
  host : Host

namespace Workspace

variable {ι : Type} [DecidableEq ι]

inductive Event (ι : Type) where
  | command (i : ι) (c : Command)
  /-- anything else that happens to the host, its disk included -/
  | outside (host : Host)

def step (w : Workspace ι) : Event ι → Workspace ι
  | .command i c =>
    let (_, s, h) := (w.sessions i).run w.host c
    ⟨Function.update w.sessions i s, h⟩
  | .outside h => { w with host := h }

def run (w : Workspace ι) (es : List (Event ι)) : Workspace ι := es.foldl step w

/-- The sessions are over one store, and have nothing open yet. -/
def Fresh (store : Store) (w : Workspace ι) : Prop :=
  ∀ i, (w.sessions i).store = store ∧ (w.sessions i).opened = []

end Workspace

/-! ## memories -/

/-- What a session remembers of a file: that it has created it and not saved it since, or the text
it has last loaded or saved. -/
inductive Memory where
  | created
  | text (text : String)
  deriving DecidableEq, Repr

def Memory.version : Memory → Version
  | .created => .new
  | .text t => .ofText t

/-- The memories of a session after a command that succeeds. Opening a file that is open does not
load it, and resetting one that was never saved does not either. -/
def Session.recollect (s : Session) (d : Disk) (known : String → Option Memory) :
    Command → String → Option Memory
  | .open name _ =>
    if (known name).isSome then known
    else Function.update known name ((s.store.textOf? d name).map .text)
  | .create name _ => Function.update known name (some .created)
  | .close name => Function.update known name none
  | .reset name =>
    if known name = some .created then known
    else Function.update known name ((s.store.textOf? d name).map .text)
  | .save name =>
    Function.update known name ((s.find? name).map fun o => .text o.file.text)
  | _ => known

namespace Workspace

variable {ι : Type} [DecidableEq ι]

def recollect (w : Workspace ι) (known : ι → String → Option Memory) :
    Event ι → ι → String → Option Memory
  | .command i c =>
    match (w.sessions i).run w.host c with
    | (.ok _, _, _) =>
      Function.update known i ((w.sessions i).recollect w.host.disk (known i) c)
    | (.error _, _, _) => known
  | .outside _ => known

def recollectAll (w : Workspace ι) (known : ι → String → Option Memory) :
    List (Event ι) → ι → String → Option Memory
  | [] => known
  | e :: es => (w.step e).recollectAll (w.recollect known e) es

/-- The memories of sessions that remember nothing at first. -/
def memory (w : Workspace ι) (es : List (Event ι)) : ι → String → Option Memory :=
  w.recollectAll (fun _ _ => none) es

/-! ## texts that occur -/

def Shows (store : Store) (w : Workspace ι) (name text : String) : Prop :=
  store.textOf? w.host.disk name = some text ∨
    ∃ i o, (w.sessions i).find? name = some o ∧ o.file.text = text

/-- The text is shown at some time during the events. -/
def Occurs (store : Store) (w : Workspace ι) (es : List (Event ι)) (name text : String) : Prop :=
  ∃ before, before <+: es ∧ (w.run before).Shows store name text

end Workspace

/-! ## versions are remembered -/

/-- The open files of a session are those it remembers, at the versions of its memories; the texts
in them are among the given ones. -/
structure Session.Remembers (store : Store) (texts : String → Set String) (s : Session)
    (known : String → Option Memory) : Prop where
  store : s.store = store
  version : ∀ name, (s.find? name).map OpenFile.version = (known name).map Memory.version
  text : ∀ name t, known name = some (.text t) → t ∈ texts name

namespace Session.Remembers

variable {store : Store} {texts : String → Set String} {s s' : Session}
  {known : String → Option Memory} {d : Disk} {name : String} {o : OpenFile}

theorem version_eq_new_iff (h : s.Remembers store texts known) (ho : s.find? name = some o) :
    o.version = .new ↔ known name = some .created := by
  have hversion := h.version name
  rw [ho] at hversion
  cases hknown : known name with
  | none =>
    rw [hknown] at hversion
    cases hversion
  | some m =>
    rw [hknown, Option.map_some, Option.map_some, Option.some.injEq] at hversion
    cases m with
    | created => simp [hversion, Memory.version]
    | text t => simp [hversion, Memory.version, Version.ofText]

theorem isSome_known (h : s.Remembers store texts known) :
    (known name).isSome = (s.find? name).isSome := by
  have hversion := congrArg Option.isSome (h.version name)
  rw [Option.isSome_map, Option.isSome_map] at hversion
  exact hversion.symm

theorem put (h : s.Remembers store texts known) (hname : o.file.name = name) {m : Memory}
    (hversion : o.version = m.version) (htext : ∀ t, m = .text t → t ∈ texts name) :
    (s.put o).Remembers store texts (Function.update known name (some m)) where
  store := h.store
  version other := by
    rw [find?_put, hname]
    by_cases hother : other = name
    · rw [hother, if_pos rfl, Function.update_self, Option.map_some, Option.map_some, hversion]
    · rw [if_neg hother, Function.update_of_ne hother, h.version]
  text other t hother := by
    by_cases hsame : other = name
    · rw [hsame, Function.update_self, Option.some.injEq] at hother
      rw [hsame]
      exact htext t hother
    · rw [Function.update_of_ne hsame] at hother
      exact h.text other t hother

theorem remove (h : s.Remembers store texts known) :
    (s.remove name).Remembers store texts (Function.update known name none) where
  store := h.store
  version other := by
    rw [find?_remove]
    by_cases hother : other = name
    · rw [hother, if_pos rfl, Function.update_self, Option.map_none, Option.map_none]
    · rw [if_neg hother, Function.update_of_ne hother, h.version]
  text other t hother := by
    by_cases hsame : other = name
    · rw [hsame, Function.update_self] at hother
      cases hother
    · rw [Function.update_of_ne hsame] at hother
      exact h.text other t hother

theorem put_edited (h : s.Remembers store texts known) (ho : s.find? name = some o)
    {f : PolicyFile} (hf : f.name = name) :
    (s.put { o with file := f }).Remembers store texts known where
  store := h.store
  version other := by
    rw [find?_put]
    by_cases hother : other = f.name
    · rw [if_pos hother, hother, hf, ← h.version, ho]
      rfl
    · rw [if_neg hother, h.version]
  text := h.text

theorem put_loaded (h : s.Remembers store texts known) {allowIncludes : Bool}
    (ho : s.loaded d name allowIncludes = .ok o)
    (hstored : ∀ name t, store.textOf? d name = some t → t ∈ texts name) :
    (s.put o).Remembers store texts
      (Function.update known name ((s.store.textOf? d name).map .text)) := by
  obtain ⟨t, ht, rfl⟩ := loaded_eq_ok_iff.mp ho
  rw [ht]
  refine h.put rfl rfl fun t' ht' => ?_
  cases ht'
  exact hstored name t (h.store ▸ ht)

/-- **Every command that succeeds leaves the session with what it remembers.** -/
theorem of_effect (h : s.Remembers store texts known) {c : Command} (heffect : Effect s d c s')
    (hstored : ∀ name t, store.textOf? d name = some t → t ∈ texts name) :
    s'.Remembers store texts (s.recollect d known c) := by
  cases heffect with
  | asked hc =>
    cases c with
    | files | file | diagnostics | isModified | canSave | preview => exact h
    | _ => cases hc
  | @held name _ o ho =>
    have hknown : (known name).isSome := by rw [h.isSome_known, ho]; rfl
    rw [recollect, if_pos hknown]
    exact h
  | @opened name _ o hnone ho =>
    have hknown : ¬ (known name).isSome := by rw [h.isSome_known, hnone]; simp
    rw [recollect, if_neg hknown]
    exact h.put_loaded ho hstored
  | created hnone hfree => exact h.put rfl rfl fun t ht => by cases ht
  | closed ho => exact h.remove
  | @emptied name o ho hnew =>
    rw [recollect, if_pos ((h.version_eq_new_iff ho).mp hnew)]
    exact h.put_edited ho rfl
  | @reloaded name o o' ho hnew ho' =>
    rw [recollect, if_neg fun hcreated => hnew ((h.version_eq_new_iff ho).mpr hcreated)]
    exact h.put_loaded ho' hstored
  | @edited c name o f hc ho hf =>
    have hknown : s.recollect d known c = known := by
      cases c with
      | setText | insertRule | replaceLine | moveRule | deleteLine | editField => rfl
      | _ => cases hc
    rw [hknown]
    exact h.put_edited ho (hf.name.trans (name_of_find? ho))

theorem of_save (h : s.Remembers store texts known) {host host' : Host}
    (hsave : s.save host name = (.ok (), s', host'))
    (hopen : ∀ name o, s.find? name = some o → o.file.text ∈ texts name) :
    s'.Remembers store texts (s.recollect host.disk known (.save name)) := by
  obtain ⟨o, p, written, ho, -, -, -, -, rfl, -⟩ := save_eq_ok hsave
  have hname : o.file.name = name := name_of_find? ho
  have htext : ∀ t, Memory.text o.file.text = .text t → t ∈ texts name := by
    intro t ht
    cases ht
    exact hopen name o ho
  rw [recollect, ho, Option.map_some]
  exact h.put (o := ⟨o.file, .ofText o.file.text, o.file.text⟩) hname rfl htext

end Session.Remembers

/-! ## runs -/

namespace Workspace

variable {ι : Type} [DecidableEq ι] {store : Store} {texts : String → Set String}
  {w : Workspace ι} {known : ι → String → Option Memory}

def Remembers (store : Store) (texts : String → Set String) (w : Workspace ι)
    (known : ι → String → Option Memory) : Prop :=
  ∀ i, (w.sessions i).Remembers store texts (known i)

omit [DecidableEq ι] in
theorem remembers_of_fresh (h : w.Fresh store) : w.Remembers store texts fun _ _ => none := by
  intro i
  refine ⟨(h i).1, fun name => ?_, fun name t ht => by cases ht⟩
  rw [Session.find?, (h i).2]
  rfl

theorem Remembers.update (h : w.Remembers store texts known) {i : ι} {s : Session} {host : Host}
    {remembered : String → Option Memory} (hs : s.Remembers store texts remembered) :
    Workspace.Remembers store texts ⟨Function.update w.sessions i s, host⟩
      (Function.update known i remembered) := by
  intro j
  by_cases hj : j = i
  · subst hj
    rw [Function.update_self]
    show (Function.update w.sessions j s j).Remembers store texts remembered
    rw [Function.update_self]
    exact hs
  · rw [Function.update_of_ne hj]
    show (Function.update w.sessions i s j).Remembers store texts (known j)
    rw [Function.update_of_ne hj]
    exact h j

theorem Remembers.step (h : w.Remembers store texts known) (e : Event ι)
    (htexts : ∀ name t, w.Shows store name t → t ∈ texts name) :
    (w.step e).Remembers store texts (w.recollect known e) := by
  cases e with
  | outside host => exact h
  | command i c =>
    have hopen : ∀ name o, (w.sessions i).find? name = some o → o.file.text ∈ texts name :=
      fun name o ho => htexts name _ (.inr ⟨i, o, ho, rfl⟩)
    have hstored : ∀ name t, store.textOf? w.host.disk name = some t → t ∈ texts name :=
      fun name t ht => htexts name t (.inl ht)
    rcases hrun : (w.sessions i).run w.host c with ⟨result, s, host⟩
    rw [Workspace.step, Workspace.recollect, hrun]
    cases result with
    | ok reply =>
      refine h.update ?_
      rcases Session.run_eq_ok hrun with ⟨name, rfl, hsave⟩ | ⟨-, heffect⟩
      · exact (h i).of_save hsave hopen
      · exact (h i).of_effect heffect hstored
    | error e =>
      show Workspace.Remembers store texts ⟨Function.update w.sessions i s, host⟩ known
      rw [Session.session_of_run_eq_error hrun, Function.update_eq_self]
      exact h

/-- **After all events every session remembers the versions of its open files.** -/
theorem Remembers.run (es : List (Event ι)) (h : w.Remembers store texts known)
    (htexts : ∀ before, before <+: es → ∀ name t, (w.run before).Shows store name t →
      t ∈ texts name) :
    (w.run es).Remembers store texts (w.recollectAll known es) := by
  induction es generalizing w known with
  | nil => exact h
  | cons e es ih =>
    have hstep : (w.step e).Remembers store texts (w.recollect known e) :=
      h.step e (htexts [] List.nil_prefix)
    exact ih hstep fun before hbefore =>
      htexts (e :: before) (List.cons_prefix_cons.mpr ⟨rfl, hbefore⟩)

/-! ## saving -/

/-- **A save only replaces what the session remembers.** If it succeeds, the session has created
the file and not saved it since, and nothing was there; or there was just the text that it has last
loaded or saved. Different texts that occur under the name have different versions. -/
theorem save_replaces_known (hw : w.Fresh store) (es : List (Event ι)) {name : String}
    (hinj : Set.InjOn Version.ofText {t | w.Occurs store es name t}) {i : ι}
    (hsave : (((w.run es).sessions i).save (w.run es).host name).1 = .ok ()) :
    ∃ p, store.path name = .ok p ∧
      ((w.memory es i name = some .created ∧ (w.run es).host.disk.exists? p = false) ∨
        ∃ t, w.memory es i name = some (.text t) ∧ (w.run es).host.disk.readText p = .ok t) := by
  have hremembers : (w.run es).Remembers store (fun name => {t | w.Occurs store es name t})
      (w.memory es) :=
    (remembers_of_fresh hw).run es fun before hbefore name t ht => ⟨before, hbefore, ht⟩
  have hi := hremembers i
  rcases hresult : ((w.run es).sessions i).save (w.run es).host name with ⟨result, s', host'⟩
  rw [hresult] at hsave
  obtain rfl : result = .ok () := hsave
  obtain ⟨o, p, _, ho, -, hp, hfits, -⟩ := Session.save_eq_ok hresult
  rw [hi.store] at hp
  have hversion := hi.version name
  rw [ho] at hversion
  refine ⟨p, hp, ?_⟩
  cases hknown : w.memory es i name with
  | none =>
    rw [hknown] at hversion
    cases hversion
  | some m =>
    rw [hknown, Option.map_some, Option.map_some, Option.some.injEq] at hversion
    rw [hversion] at hfits
    cases m with
    | created => exact .inl ⟨rfl, hfits⟩
    | text known =>
      obtain ⟨t, ht, hsame⟩ := hfits
      have hoccurs : w.Occurs store es name t :=
        ⟨es, List.prefix_refl es, .inl (Store.textOf?_eq_some_iff.mpr ⟨p, hp, ht⟩)⟩
      have hknown' : w.Occurs store es name known := hi.text name known hknown
      obtain rfl : t = known := hinj hoccurs hknown' hsame
      exact .inr ⟨t, rfl, ht⟩

/-! ## two sessions that take turns -/

def policyStore : Store := ⟨⟨["policy"]⟩, ⟨["policy", "include"]⟩⟩

def twoSessions : Workspace Bool where
  sessions _ := ⟨policyStore, none, false, []⟩
  host := ⟨⟨.directory [("policy", .directory
    [("30-user.policy", .file (Text.Utf8.encode "# one\n"))])]⟩, ⟨0⟩, []⟩

/-- Both sessions open the file; the second has to load it again, for the first one saves. -/
def turns : List (Event Bool) :=
  [.command false (.open "30-user" none), .command true (.open "30-user" none),
    .command false (.setText "30-user" "# two\n"), .command false (.save "30-user"),
    .command true (.reset "30-user"), .command true (.setText "30-user" "# three\n")]

def turnTexts : List String := ["# one\n", "# two\n", "# three\n"]

theorem mem_turnTexts_of_occurs {t : String}
    (h : twoSessions.Occurs policyStore turns "30-user" t) : t ∈ turnTexts := by
  obtain ⟨before, hbefore, hshows⟩ := h
  have hall : ∀ before ∈ turns.inits,
      (policyStore.textOf? (twoSessions.run before).host.disk "30-user").all
        (turnTexts.contains ·) = true ∧
      ∀ i, ((((twoSessions.run before).sessions i).find? "30-user").map (·.file.text)).all
        (turnTexts.contains ·) = true := by
    decide +kernel
  obtain ⟨hstored, hopen⟩ := hall before ((List.mem_inits before turns).mpr hbefore)
  rcases hshows with ht | ⟨i, o, ho, rfl⟩
  · rw [ht] at hstored
    simpa using hstored
  · have hi := hopen i
    rw [ho] at hi
    simpa using hi

theorem save_replaces_turn :
    twoSessions.Fresh policyStore ∧
    Set.InjOn Version.ofText {t | twoSessions.Occurs policyStore turns "30-user" t} ∧
    (((twoSessions.run turns).sessions true).save (twoSessions.run turns).host "30-user").1 =
      .ok () ∧
    ∃ p, policyStore.path "30-user" = .ok p ∧
      ((twoSessions.memory turns true "30-user" = some .created ∧
          (twoSessions.run turns).host.disk.exists? p = false) ∨
        ∃ t, twoSessions.memory turns true "30-user" = some (.text t) ∧
          (twoSessions.run turns).host.disk.readText p = .ok t) := by
  have hfresh : twoSessions.Fresh policyStore := fun i => ⟨rfl, rfl⟩
  have hversions : (turnTexts.map Version.ofText).Nodup := by decide +kernel
  have hinj : Set.InjOn Version.ofText
      {t | twoSessions.Occurs policyStore turns "30-user" t} := by
    intro t ht u hu heq
    exact List.inj_on_of_nodup_map hversions (mem_turnTexts_of_occurs ht)
      (mem_turnTexts_of_occurs hu) heq
  have hsave : (((twoSessions.run turns).sessions true).save (twoSessions.run turns).host
      "30-user").1 = .ok () := by
    decide +kernel
  exact ⟨hfresh, hinj, hsave, save_replaces_known hfresh turns hinj hsave⟩

end Workspace

end QubePolicy
