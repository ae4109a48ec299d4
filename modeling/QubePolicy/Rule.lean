import QubePolicy.Action

/-!
# Rules

A rule says which calls it is about and what becomes of them.

* `Rule`         the five fields of a rule;
* `Rule.Field`   the names of the parts of a rule;
* `Rule.render`  its spelling, the words of its fields with one space between neighbours;
* `Rule.key`     its spelling with the parameters in key order: rules of one meaning share it.
-/

namespace QubePolicy

structure Rule where
  service : ServiceSpecifier
  argument : ArgumentSpecifier
  source : QubeSpecifier
  destination : QubeSpecifier
  action : Action
  deriving DecidableEq, Repr

namespace Rule

/-! ## fields -/

inductive Field where
  | service | argument | source | destination | action | parameters
  deriving DecidableEq, Repr

namespace Field

def all : List Field := [.service, .argument, .source, .destination, .action, .parameters]

def positional : List Field := [.service, .argument, .source, .destination, .action]

def label : Field → String
  | .service => "service"
  | .argument => "argument"
  | .source => "source"
  | .destination => "destination"
  | .action => "action"
  | .parameters => "parameters"

end Field

/-! ## spelling -/

def words (r : Rule) : List String :=
  r.service.render :: r.argument.render :: r.source.render :: r.destination.render ::
    r.action.words

def render (r : Rule) : String := " ".intercalate r.words

def key (r : Rule) : String := render { r with action := r.action.sorted }

end Rule

end QubePolicy
