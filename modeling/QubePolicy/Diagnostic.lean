import QubePolicy.Place
import QubePolicy.Rule

/-!
# Diagnostics

What can be wrong with a line, where, and how it is told.

* `Problem`      a cause, with its `kind` and its `message`;
* `Finding`      a problem and the place in a line where it is found;
* `Diagnostic`   a finding as it is reported: with its line, its kind and its severity;
* `Checked`      a value, or the findings that speak against it; combining two checked values
                 with `<*>` keeps the findings of both, in order.
-/

namespace QubePolicy

/-! ## kinds -/

inductive Severity where
  | error | warning
  deriving DecidableEq, Repr

def Severity.label : Severity → String
  | .error => "error"
  | .warning => "warning"

inductive Category where
  /-- the line has not the shape of a rule or directive -/
  | syntactic
  /-- a part of the line is not allowed where it stands -/
  | semantic
  /-- the lines of the file do not fit together -/
  | structural
  deriving DecidableEq, Repr

def Category.label : Category → String
  | .syntactic => "syntax"
  | .semantic => "semantic"
  | .structural => "structural"

namespace Diagnostic

inductive Kind where
  | missingField
  | unexpectedToken
  | unknownAction
  | invalidServiceName
  | invalidArgumentSyntax
  | malformedParameter
  | missingIncludePath
  | unknownDirective
  | illegalAs (form : QubeSpecifier.Form) (position : Position)
  | invalidQubeName
  | invalidQubeSpecifier
  | unknownQubeKeyword
  | unexpectedParametersForDeny
  | parameterNotApplicable
  | duplicateParameter
  | includeNotAllowed
  | redundantRule
  deriving DecidableEq, Repr

namespace Kind

def label : Kind → String
  | .missingField => "MissingField"
  | .unexpectedToken => "UnexpectedToken"
  | .unknownAction => "UnknownAction"
  | .invalidServiceName => "InvalidServiceName"
  | .invalidArgumentSyntax => "InvalidArgumentSyntax"
  | .malformedParameter => "MalformedParameter"
  | .missingIncludePath => "MissingIncludePath"
  | .unknownDirective => "UnknownDirective"
  | .illegalAs form position => form.label ++ "IllegalAs" ++ position.label
  | .invalidQubeName => "InvalidQubeName"
  | .invalidQubeSpecifier => "InvalidQubeSpecifier"
  | .unknownQubeKeyword => "UnknownQubeKeyword"
  | .unexpectedParametersForDeny => "UnexpectedParametersForDeny"
  | .parameterNotApplicable => "ParameterNotApplicable"
  | .duplicateParameter => "DuplicateParameter"
  | .includeNotAllowed => "IncludeNotAllowed"
  | .redundantRule => "RedundantRule"

def all : List Kind :=
  [.missingField, .unexpectedToken, .unknownAction, .invalidServiceName, .invalidArgumentSyntax,
    .malformedParameter, .missingIncludePath, .unknownDirective] ++
  (QubeSpecifier.Form.all.flatMap fun form => Position.all.map (illegalAs form)) ++
  [.invalidQubeName, .invalidQubeSpecifier, .unknownQubeKeyword, .unexpectedParametersForDeny,
    .parameterNotApplicable, .duplicateParameter, .includeNotAllowed, .redundantRule]

def category : Kind → Category
  | .missingField | .unexpectedToken | .unknownAction | .invalidServiceName
  | .invalidArgumentSyntax | .malformedParameter | .missingIncludePath | .unknownDirective =>
    .syntactic
  | .redundantRule => .structural
  | _ => .semantic

/-- Only what concerns the file as a whole is a warning. -/
def severity (k : Kind) : Severity :=
  match k.category with
  | .structural => .warning
  | _ => .error

end Kind

end Diagnostic

/-! ## problems -/

inductive NamedPart where
  | tag | template | type
  deriving DecidableEq, Repr

def NamedPart.phrase : NamedPart → String
  | .tag => "tag"
  | .template => "template name"
  | .type => "type"

inductive Problem where
  | missingFields (fields : List Rule.Field)
  /-- the action comes before these fields -/
  | missingBeforeAction (fields : List Rule.Field)
  | unexpectedBeforeAction (text : String)
  | unexpectedAfterPath (text : String)
  | unknownAction (text : String)
  | invalidServiceName (text : String)
  | invalidArgument (text : String)
  | malformedParameter (text : String)
  | missingIncludePath (keyword : String)
  | unknownDirective (keyword : String)
  | illegalPosition (specifier : QubeSpecifier) (position : Position)
  | missingQubeName
  | invalidQubeName (text : String)
  | invalidQubeSpecifier (part : NamedPart) (text : String)
  | unknownQubeKeyword (text : String)
  | parametersForDeny
  | targetOfOther (mode : Grant)
  | duplicateParameter (key : String)
  | includeNotAllowed
  /-- the rule has the meaning of the rule on an earlier line -/
  | duplicatesLine (earlier : Nat)
  deriving DecidableEq, Repr

namespace Problem

def kind : Problem → Diagnostic.Kind
  | .missingFields _ | .missingBeforeAction _ => .missingField
  | .unexpectedBeforeAction _ | .unexpectedAfterPath _ => .unexpectedToken
  | .unknownAction _ => .unknownAction
  | .invalidServiceName _ => .invalidServiceName
  | .invalidArgument _ => .invalidArgumentSyntax
  | .malformedParameter _ => .malformedParameter
  | .missingIncludePath _ => .missingIncludePath
  | .unknownDirective _ => .unknownDirective
  | .illegalPosition specifier position => .illegalAs specifier.form position
  | .missingQubeName | .invalidQubeName _ => .invalidQubeName
  | .invalidQubeSpecifier _ _ => .invalidQubeSpecifier
  | .unknownQubeKeyword _ => .unknownQubeKeyword
  | .parametersForDeny => .unexpectedParametersForDeny
  | .targetOfOther _ => .parameterNotApplicable
  | .duplicateParameter _ => .duplicateParameter
  | .includeNotAllowed => .includeNotAllowed
  | .duplicatesLine _ => .redundantRule

def fieldList (fields : List Rule.Field) : String :=
  ", ".intercalate (fields.map Rule.Field.label)

def message : Problem → String
  | .missingFields fields => s!"Missing {fieldList fields}"
  | .missingBeforeAction fields => s!"Missing {fieldList fields} before the action"
  | .unexpectedBeforeAction text => s!"Unexpected \"{text}\" before the action"
  | .unexpectedAfterPath text => s!"Unexpected \"{text}\" after the include path"
  | .unknownAction text => s!"Unknown action \"{text}\": expected allow, deny or ask"
  | .invalidServiceName text =>
    s!"Invalid service name \"{text}\": expected \"*\" or a dotted name such as qubes.Filecopy"
  | .invalidArgument text =>
    s!"Invalid argument \"{text}\": expected \"*\", \"+\" or \"+argument\""
  | .malformedParameter text => s!"Invalid parameter \"{text}\": expected KEY=VALUE"
  | .missingIncludePath keyword => s!"Missing path after {keyword}"
  | .unknownDirective keyword =>
    s!"Unknown directive \"{keyword}\": expected !include or !include-dir"
  | .illegalPosition specifier position =>
    s!"\"{specifier.render}\" is not allowed as {position.phrase}"
  | .missingQubeName => "Missing qube name"
  | .invalidQubeName text =>
    s!"Invalid qube name \"{text}\": only letters, digits and \"-\" are allowed"
  | .invalidQubeSpecifier part text => s!"Invalid {part.phrase} in \"{text}\""
  | .unknownQubeKeyword text => s!"Unknown keyword \"{text}\""
  | .parametersForDeny => "The deny action does not take parameters"
  | .targetOfOther mode =>
    s!"Parameter \"{mode.other.targetKey}\" is not valid for the {mode.word} action (use {mode.targetKey}=)"
  | .duplicateParameter key => s!"Parameter \"{key}\" is given more than once"
  | .includeNotAllowed => "Include directives are not allowed in this file"
  | .duplicatesLine earlier => s!"Rule duplicates line {earlier} and can never match"

end Problem

/-! ## reports -/

structure Finding where
  problem : Problem
  place : Place
  deriving DecidableEq, Repr

structure Diagnostic where
  line : Int
  span : Span
  message : String
  kind : Diagnostic.Kind
  severity : Severity
  deriving DecidableEq, Repr

namespace Diagnostic

def make (kind : Kind) (line : Int) (span : Span) (message : String) : Diagnostic :=
  ⟨line, span, message, kind, kind.severity⟩

def isError (d : Diagnostic) : Bool := d.severity == .error

def errorCount (ds : List Diagnostic) : Nat := ds.countP isError

def warningCount (ds : List Diagnostic) : Nat := ds.length - errorCount ds

end Diagnostic

def Finding.onLine (line : Int) (f : Finding) : Diagnostic :=
  .make f.problem.kind line f.place.span f.problem.message

/-! ## checked values -/

inductive Checked (α : Type) where
  | valid (value : α)
  | invalid (findings : List Finding)
  deriving DecidableEq, Repr

namespace Checked

variable {α β : Type}

def findings : Checked α → List Finding
  | .valid _ => []
  | .invalid fs => fs

def map (f : α → β) : Checked α → Checked β
  | .valid a => .valid (f a)
  | .invalid fs => .invalid fs

/-- Applies a checked function to a checked value; what speaks against either is kept. -/
def apply : Checked (α → β) → Checked α → Checked β
  | .valid f, .valid a => .valid (f a)
  | f, a => .invalid (f.findings ++ a.findings)

instance : Applicative Checked where
  pure := .valid
  map := map
  seq f a := apply f (a ())

theorem findings_map (f : α → β) (a : Checked α) : (f <$> a).findings = a.findings := by
  cases a <;> rfl

theorem findings_apply (f : Checked (α → β)) (a : Checked α) :
    (f <*> a).findings = f.findings ++ a.findings := by
  cases f <;> cases a <;> simp [Seq.seq, apply, findings]

def ofExcept (place : Place) : Except Problem α → Checked α
  | .ok a => .valid a
  | .error p => .invalid [⟨p, place⟩]

end Checked

end QubePolicy
