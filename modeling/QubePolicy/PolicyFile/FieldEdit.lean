import QubePolicy.PolicyFile.Edits

/-!
# Edits of one field

* `Rule.Field.index?`       the place of a field among the tokens of a rule;
* `PolicyFile.withField`    a raw line with one field replaced, all other text untouched;
* `PolicyFile.editField`    the file with one field of a rule replaced.
-/

namespace QubePolicy

/-- The place of a field among the tokens of its line; the parameters are as many as there are. -/
def Rule.Field.index? : Field → Option Nat
  | .service => some 0
  | .argument => some 1
  | .source => some 2
  | .destination => some 3
  | .action => some 4
  | .parameters => none

namespace PolicyFile

def spliceToken (raw : List Char) (t : Token) (value : List Char) : List Char :=
  Text.takeUnits (t.column - 1).toNat raw ++ value ++ Text.dropUnits (t.endColumn - 1).toNat raw

/-- The raw line with the text behind a token replaced: a space and the text, or nothing. -/
def spliceBehind (raw : List Char) (t : Token) (text : List Char) : List Char :=
  Text.takeUnits (t.endColumn - 1).toNat raw ++ if text = [] then [] else ' ' :: text

/-- Whether a value is one token, with nothing blank around it. -/
def isOneToken (value : String) : Bool :=
  (Token.scan value).length == 1 && Text.trimmed value == value

def withField (raw : String) (field : Rule.Field) (value : String) : Except Misuse String :=
  let tokens := Token.scan raw
  match field.index? with
  | none =>
    match tokens[4]? with
    | some action =>
      .ok (String.ofList (spliceBehind raw.toList action (Text.trim value.toList)))
    | none => .ok raw
  | some i =>
    if isOneToken value then
      match tokens[i]? with
      | some t => .ok (String.ofList (spliceToken raw.toList t value.toList))
      | none => .ok raw
    else .error (.invalidValue field value)

def editField (f : PolicyFile) (index : Number) (field : Rule.Field) (value : String) :
    Except Fault PolicyFile :=
  match index.toNat?.bind f.line? with
  | none => .error (.misuse (.noSuchLine index f.name))
  | some l =>
    match l.content with
    | .rule _ =>
      match withField l.raw field value with
      | .ok raw => f.replaceLine index raw
      | .error m => .error (.misuse m)
    | _ => .error (.misuse (.notARule l.number f.name))

end PolicyFile

end QubePolicy
