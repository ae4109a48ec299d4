import QubePolicy.Rule

/-!
# Requests

* `Qube`          what is known of a qube: its name, its type if known, its tags;
* `Destination`   where a call is to go;
* `Request`       a call: a service with an argument, from a qube to a destination;
* `Rule.covers`   whether a rule is about a request.
-/

namespace QubePolicy

structure Qube where
  name : String
  type : Option String
  tags : List String
  deriving DecidableEq, Repr

inductive Destination where
  /-- the caller names none -/
  | unspecified
  /-- a new disposable, from a named template or the one for all -/
  | disposable (template : Option Qube)
  | qube (qube : Qube)
  deriving DecidableEq, Repr

structure Request where
  service : String
  /-- empty when the call has none -/
  argument : String
  source : Qube
  destination : Destination
  deriving DecidableEq, Repr

namespace Qube

/-- The admin qube is known by its name or by its type. -/
def isAdmin (q : Qube) : Bool := q.name == "dom0" || q.type == some "AdminVM"

def hasTag (q : Qube) (tag : String) : Bool := q.tags.contains tag

end Qube

/-! ## specifiers -/

def ServiceSpecifier.covers (service : String) : ServiceSpecifier → Bool
  | .wildcard => true
  | .name n => n == service

def ArgumentSpecifier.covers (argument : String) : ArgumentSpecifier → Bool
  | .any => true
  | .empty => argument == ""
  | .specific text => argument == text

namespace QubeSpecifier

/-- Whether a specifier is about a qube that exists. The forms for no destination and for a new
disposable are not. -/
def coversQube (q : Qube) : QubeSpecifier → Bool
  | .literal name => q.name == name
  | .adminVM => q.isAdmin
  | .anyVM => true
  | .tag t => q.hasTag t
  | .type t => q.type == some t
  | .default | .dispVM | .dispVMNamed _ | .dispVMByTag _ => false

def coversDisposable (template : Option Qube) : QubeSpecifier → Bool
  | .anyVM => true
  | .dispVM => template.isNone
  | .dispVMNamed name => template.any (·.name == name)
  | .dispVMByTag t => template.any (·.hasTag t)
  | _ => false

def coversDestination : Destination → QubeSpecifier → Bool
  | .unspecified, q => q == .default
  | .disposable template, q => q.coversDisposable template
  | .qube qube, q => q.coversQube qube

end QubeSpecifier

/-! ## rules -/

def Rule.covers (request : Request) (r : Rule) : Bool :=
  r.service.covers request.service && r.argument.covers request.argument &&
    r.source.coversQube request.source && r.destination.coversDestination request.destination

end QubePolicy
