import QubePolicy.Specifier.Reader

/-!
# Reading actions

* `Action.readClause`    one parameter token, after the tokens with the keys in `seen`;
* `Action.readClauses`   all parameter tokens; each is judged, also after a refused one;
* `Action.read`          the action word with its parameters.
-/

namespace QubePolicy.Action

inductive Clause where
  | target (specifier : QubeSpecifier)
  | parameter (parameter : Parameter)
  deriving DecidableEq, Repr

namespace Clause

def target? : Clause → Option QubeSpecifier
  | .target q => some q
  | .parameter _ => none

def parameter? : Clause → Option Parameter
  | .target _ => none
  | .parameter p => some p

end Clause

/-- The clause of a token. A key may be given once, and the target key of the other mode not at
all; a problem of a target is found at its value. -/
def readClause (mode : Grant) (seen : List String) (t : Token) : Checked Clause :=
  match t.assignment? with
  | none => .ofExcept (.token t) (.error (.malformedParameter t.value))
  | some (key, value) =>
    if seen.contains key then .ofExcept (.token t) (.error (.duplicateParameter key))
    else if key = mode.other.targetKey then .ofExcept (.token t) (.error (.targetOfOther mode))
    else if key = mode.targetKey then
      .target <$> .ofExcept (.value t key value) (QubeSpecifier.readAt .parameter value)
    else pure (.parameter ⟨key, value⟩)

/-- The clauses of the tokens; the key of a refused token counts as given. -/
def readClauses (mode : Grant) (seen : List String) : List Token → Checked (List Clause)
  | [] => pure []
  | t :: ts =>
    List.cons <$> readClause mode seen t <*>
      readClauses mode ((t.assignment?.map Prod.fst).toList ++ seen) ts

def ofClauses (mode : Grant) (clauses : List Clause) : Action :=
  .grant mode (clauses.findSome? Clause.target?) (clauses.filterMap Clause.parameter?)

def ofDecision (parameters : List Token) : Decision → Checked Action
  | .deny =>
    match parameters with
    | [] => pure .deny
    | first :: rest => .ofExcept (.all first rest) (.error .parametersForDeny)
  | .grant mode => ofClauses mode <$> readClauses mode [] parameters

def read (word : Token) (parameters : List Token) : Checked Action :=
  match Decision.ofWord? word.value with
  | some decision => ofDecision parameters decision
  | none => .ofExcept (.token word) (.error (.unknownAction word.value))

end QubePolicy.Action
