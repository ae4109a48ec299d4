import QubePolicy.Diagnostic
import QubePolicy.Text.Ends

/-!
# Reading specifiers

Each specifier is read from the text of one token.

* `ServiceSpecifier.read`, `ArgumentSpecifier.read`   the first two fields;
* `QubeSpecifier.read`       a qube specifier wherever it stands;
* `QubeSpecifier.readAt`     the same, refused where its form is not legal.
-/

namespace QubePolicy

def ServiceSpecifier.read (text : String) : Except Problem ServiceSpecifier :=
  if text = "*" then .ok .wildcard
  else if Text.isServiceName text then .ok (.name text)
  else .error (.invalidServiceName text)

/-- `*` is any argument, `+` none, and `+` before a text that text. -/
def ArgumentSpecifier.read (text : String) : Except Problem ArgumentSpecifier :=
  if text = "*" then .ok .any
  else match Text.after? "+" text with
    | some rest => .ok (if rest = "" then .empty else .specific rest)
    | none => .error (.invalidArgument text)

namespace QubeSpecifier

def named (part : NamedPart) (isName : String → Bool) (make : String → QubeSpecifier)
    (text name : String) : Except Problem QubeSpecifier :=
  if isName name then .ok (make name) else .error (.invalidQubeSpecifier part text)

/-- A text with `@` in front is one of the four bare keywords or a keyword with a name behind
it; of two keywords that begin alike the longer one is meant. Any other text is a qube name. -/
def read (text : String) : Except Problem QubeSpecifier :=
  if text = "@adminvm" then .ok .adminVM
  else if text = "@anyvm" then .ok .anyVM
  else if text = "@default" then .ok .default
  else if text = "@dispvm" then .ok .dispVM
  else if let some name := Text.after? "@dispvm:@tag:" text then
    named .tag Text.isTagName dispVMByTag text name
  else if let some name := Text.after? "@dispvm:" text then
    named .template Text.isQubeName dispVMNamed text name
  else if let some name := Text.after? "@tag:" text then
    named .tag Text.isTagName tag text name
  else if let some name := Text.after? "@type:" text then
    named .type Text.isTypeName type text name
  else if (Text.after? "@" text).isSome then .error (.unknownQubeKeyword text)
  else if Text.isQubeName text then .ok (literal text)
  else if text = "" then .error .missingQubeName
  else .error (.invalidQubeName text)

def readAt (position : Position) (text : String) : Except Problem QubeSpecifier :=
  match read text with
  | .ok q => if q.legalIn position then .ok q else .error (.illegalPosition q position)
  | .error p => .error p

end QubeSpecifier

/-! ## tokens -/

namespace Token

def readService (t : Token) : Checked ServiceSpecifier :=
  .ofExcept (.token t) (ServiceSpecifier.read t.value)

def readArgument (t : Token) : Checked ArgumentSpecifier :=
  .ofExcept (.token t) (ArgumentSpecifier.read t.value)

def readQube (position : Position) (t : Token) : Checked QubeSpecifier :=
  .ofExcept (.token t) (QubeSpecifier.readAt position t.value)

end Token

end QubePolicy
