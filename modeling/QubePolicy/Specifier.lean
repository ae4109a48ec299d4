import QubePolicy.Text.Names

/-!
# Specifiers

The first four fields of a rule say which calls the rule is about.

* `ServiceSpecifier`    any service, or one by name;
* `ArgumentSpecifier`   any argument, none, or one by its text;
* `QubeSpecifier`       the calling or the called qube, in one of nine forms;
* `Position`            where a qube specifier stands, and `QubeSpecifier.legalIn` which forms
                        may stand there.

Each specifier has one spelling, its `render`.
-/

namespace QubePolicy

/-! ## services and arguments -/

inductive ServiceSpecifier where
  | wildcard
  | name (name : String)
  deriving DecidableEq, Repr

def ServiceSpecifier.render : ServiceSpecifier → String
  | .wildcard => "*"
  | .name n => n

inductive ArgumentSpecifier where
  | empty
  | any
  | specific (text : String)
  deriving DecidableEq, Repr

def ArgumentSpecifier.render : ArgumentSpecifier → String
  | .empty => "+"
  | .any => "*"
  | .specific text => "+" ++ text

/-! ## qubes -/

inductive QubeSpecifier where
  | literal (name : String)
  | adminVM
  | anyVM
  | default
  | dispVM
  /-- a new disposable from a named template -/
  | dispVMNamed (name : String)
  /-- a new disposable from a template with a tag -/
  | dispVMByTag (tag : String)
  | tag (tag : String)
  | type (typeName : String)
  deriving DecidableEq, Repr

namespace QubeSpecifier

def render : QubeSpecifier → String
  | .literal n => n
  | .adminVM => "@adminvm"
  | .anyVM => "@anyvm"
  | .default => "@default"
  | .dispVM => "@dispvm"
  | .dispVMNamed n => "@dispvm:" ++ n
  | .dispVMByTag t => "@dispvm:@tag:" ++ t
  | .tag t => "@tag:" ++ t
  | .type t => "@type:" ++ t

inductive Form where
  | literal | adminVM | anyVM | default | dispVM | dispVMNamed | dispVMByTag | tag | type
  deriving DecidableEq, Repr

def form : QubeSpecifier → Form
  | .literal _ => .literal
  | .adminVM => .adminVM
  | .anyVM => .anyVM
  | .default => .default
  | .dispVM => .dispVM
  | .dispVMNamed _ => .dispVMNamed
  | .dispVMByTag _ => .dispVMByTag
  | .tag _ => .tag
  | .type _ => .type

namespace Form

def all : List Form :=
  [.literal, .adminVM, .anyVM, .default, .dispVM, .dispVMNamed, .dispVMByTag, .tag, .type]

theorem mem_all (f : Form) : f ∈ all := by cases f <;> decide

def label : Form → String
  | .literal => "Literal"
  | .adminVM => "AdminVM"
  | .anyVM => "AnyVM"
  | .default => "Default"
  | .dispVM => "DispVM"
  | .dispVMNamed => "DispVMNamed"
  | .dispVMByTag => "DispVMByTag"
  | .tag => "Tag"
  | .type => "Type"

end Form

end QubeSpecifier

/-! ## positions -/

inductive Position where
  | source | destination | parameter
  deriving DecidableEq, Repr

namespace Position

def all : List Position := [.source, .destination, .parameter]

theorem mem_all (p : Position) : p ∈ all := by cases p <;> decide

def label : Position → String
  | .source => "Source"
  | .destination => "Destination"
  | .parameter => "Parameter"

def phrase : Position → String
  | .source => "source"
  | .destination => "destination"
  | .parameter => "parameter value"

end Position

/-- A call comes from a qube that exists, so neither the absence of a destination nor a new
disposable is a source; the target of an action is one qube, so no set of qubes is a parameter. -/
def QubeSpecifier.Form.illegalPositions : Form → List Position
  | .literal | .adminVM | .anyVM | .dispVMNamed => []
  | .default | .dispVM => [.source]
  | .dispVMByTag | .tag | .type => [.parameter]

def QubeSpecifier.legalIn (q : QubeSpecifier) (p : Position) : Bool :=
  !q.form.illegalPositions.contains p

end QubePolicy
