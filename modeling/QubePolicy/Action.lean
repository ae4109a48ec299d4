import QubePolicy.Specifier
import QubePolicy.Text.Units

/-!
# Actions

The fifth field of a rule says what becomes of a call, and the parameters behind it say how.

* `Decision`    the three action words;
* `Grant`       the two ways to let a call through: at once, or after asking the user;
* `Action`      a refusal, or a grant with an optional target and further parameters;
* `Action.words`, `Action.render`   its spelling: the word, the target, then the parameters.
-/

namespace QubePolicy

/-! ## decisions -/

inductive Grant where
  | allow | ask
  deriving DecidableEq, Repr

inductive Decision where
  | deny
  | grant (mode : Grant)
  deriving DecidableEq, Repr

namespace Grant

def other : Grant → Grant
  | .allow => .ask
  | .ask => .allow

def word : Grant → String
  | .allow => "allow"
  | .ask => "ask"

/-- The parameter that names the qube which the call goes to or is proposed to go to. -/
def targetKey : Grant → String
  | .allow => "target"
  | .ask => "default_target"

end Grant

namespace Decision

def word : Decision → String
  | .deny => "deny"
  | .grant mode => mode.word

def ofWord? (s : String) : Option Decision :=
  if s = "allow" then some (.grant .allow)
  else if s = "deny" then some .deny
  else if s = "ask" then some (.grant .ask)
  else none

theorem ofWord?_word (d : Decision) : ofWord? d.word = some d := by
  rcases d with _ | _ | _ <;> rfl

theorem ofWord?_eq_some_iff {s : String} {d : Decision} : ofWord? s = some d ↔ s = d.word := by
  constructor
  · unfold ofWord?
    repeat' split
    all_goals simp_all [word, Grant.word]
    all_goals (intro h; subst h; rfl)
  · rintro rfl
    exact ofWord?_word d

end Decision

/-! ## actions -/

/-- A parameter whose meaning is left to the service. -/
structure Parameter where
  key : String
  value : String
  deriving DecidableEq, Repr

def Parameter.render (p : Parameter) : String := p.key ++ "=" ++ p.value

inductive Action where
  | deny
  | grant (mode : Grant) (target : Option QubeSpecifier) (parameters : List Parameter)
  deriving DecidableEq, Repr

namespace Action

def decision : Action → Decision
  | .deny => .deny
  | .grant mode _ _ => .grant mode

def words : Action → List String
  | .deny => [Decision.deny.word]
  | .grant mode target parameters =>
    mode.word :: (target.toList.map fun q => mode.targetKey ++ "=" ++ q.render) ++
      parameters.map Parameter.render

def render (a : Action) : String := " ".intercalate a.words

def sorted : Action → Action
  | .deny => .deny
  | .grant mode target parameters =>
    .grant mode target (parameters.mergeSort fun p q => !Text.before q.key p.key)

end Action

end QubePolicy
