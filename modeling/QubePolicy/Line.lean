import QubePolicy.Rule.Reader

/-!
# Lines

* `Directive`      the two ways to include other files;
* `Shape`          what a raw line looks like at its first character;
* `Content`        what a line says: nothing, a comment, an include, a rule, or nothing valid;
* `Line`           a raw line with its number and its content.
-/

namespace QubePolicy

/-! ## directives -/

inductive Directive where
  | file | directory
  deriving DecidableEq, Repr

namespace Directive

def word : Directive → String
  | .file => "!include"
  | .directory => "!include-dir"

def ofWord? (s : String) : Option Directive :=
  if s = "!include" then some .file else if s = "!include-dir" then some .directory else none

def readWord (allowIncludes : Bool) (t : Token) : Checked Directive :=
  match ofWord? t.value with
  | none => .ofExcept (.token t) (.error (.unknownDirective t.value))
  | some d =>
    if allowIncludes then pure d else .ofExcept (.token t) (.error .includeNotAllowed)

/-- The path behind a directive: exactly one token. -/
def readPath (keyword : Token) : List Token → Checked String
  | [] => .ofExcept (.behind keyword) (.error (.missingIncludePath keyword.value))
  | [path] => pure path.value
  | _ :: extra => .invalid (extra.map fun t => ⟨.unexpectedAfterPath t.value, .token t⟩)

end Directive

/-! ## shapes -/

inductive Shape where
  | blank
  | comment (text : String)
  | directive (tokens : List Token)
  | rule (tokens : List Token)
  deriving DecidableEq, Repr

/-- The shape of a raw line, decided by its first character that is not blank. -/
def Shape.ofRaw (raw : String) : Shape :=
  match Text.trim raw.toList with
  | [] => .blank
  | '#' :: text => .comment (String.ofList (Text.trim text))
  | '!' :: _ => .directive (Token.scan raw)
  | _ :: _ => .rule (Token.scan raw)

/-! ## contents -/

inductive Content where
  | blank
  | comment (text : String)
  | includes (directive : Directive) (path : String)
  | rule (rule : Rule)
  | malformed (findings : List Finding)
  deriving DecidableEq, Repr

namespace Content

def ofDirective (allowIncludes : Bool) : List Token → Content
  | [] => .malformed []
  | keyword :: rest =>
    match Content.includes <$> Directive.readWord allowIncludes keyword <*>
      Directive.readPath keyword rest with
    | .valid c => c
    | .invalid fs => .malformed fs

def ofRule (tokens : List Token) : Content :=
  match Rule.read tokens with
  | .valid r => .rule r
  | .invalid fs => .malformed fs

def ofShape (allowIncludes : Bool) : Shape → Content
  | .blank => .blank
  | .comment text => .comment text
  | .directive tokens => ofDirective allowIncludes tokens
  | .rule tokens => ofRule tokens

/-- What a raw line says, in a file that may include others or not. -/
def read (allowIncludes : Bool) (raw : String) : Content :=
  ofShape allowIncludes (Shape.ofRaw raw)

def label : Content → String
  | .blank => "Blank"
  | .comment _ => "Comment"
  | .includes _ _ => "Include"
  | .rule _ => "Parsed"
  | .malformed _ => "Malformed"

def isMalformed : Content → Bool
  | .malformed _ => true
  | _ => false

end Content

/-! ## lines -/

structure Line where
  raw : String
  /-- counted from 1 -/
  number : Nat
  content : Content
  deriving DecidableEq, Repr

namespace Line

def read (allowIncludes : Bool) (number : Nat) (raw : String) : Line :=
  ⟨raw, number, .read allowIncludes raw⟩

def readFrom (allowIncludes : Bool) : Nat → List String → List Line
  | _, [] => []
  | number, raw :: raws => read allowIncludes number raw :: readFrom allowIncludes (number + 1) raws

@[simp] theorem readFrom_nil (allowIncludes : Bool) (n : Nat) :
    readFrom allowIncludes n [] = [] := rfl

@[simp] theorem readFrom_cons (allowIncludes : Bool) (n : Nat) (raw : String)
    (raws : List String) : readFrom allowIncludes n (raw :: raws) =
      read allowIncludes n raw :: readFrom allowIncludes (n + 1) raws := rfl

theorem readFrom_append (allowIncludes : Bool) (n : Nat) (a b : List String) :
    readFrom allowIncludes n (a ++ b) =
      readFrom allowIncludes n a ++ readFrom allowIncludes (n + a.length) b := by
  induction a generalizing n with
  | nil => simp
  | cons raw a ih => simp [ih, Nat.add_assoc, Nat.add_comm 1]

@[simp] theorem length_readFrom (allowIncludes : Bool) (n : Nat) (raws : List String) :
    (readFrom allowIncludes n raws).length = raws.length := by
  induction raws generalizing n with
  | nil => rfl
  | cons raw raws ih => simp [ih]

theorem map_raw_readFrom (allowIncludes : Bool) (n : Nat) (raws : List String) :
    (readFrom allowIncludes n raws).map Line.raw = raws := by
  induction raws generalizing n with
  | nil => rfl
  | cons raw raws ih => simp [ih, read]

theorem getElem?_readFrom (allowIncludes : Bool) (n : Nat) (raws : List String) (i : Nat) :
    (readFrom allowIncludes n raws)[i]? = raws[i]?.map (read allowIncludes (n + i)) := by
  induction raws generalizing n i with
  | nil => rfl
  | cons raw raws ih =>
    cases i with
    | zero => rfl
    | succ i =>
      rw [readFrom_cons, List.getElem?_cons_succ, List.getElem?_cons_succ, ih, Nat.add_right_comm]
      rfl

def diagnostics (l : Line) : List Diagnostic :=
  match l.content with
  | .malformed findings => findings.map (Finding.onLine l.number)
  | _ => []

end Line

end QubePolicy
