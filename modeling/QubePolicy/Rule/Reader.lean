import QubePolicy.Action.Reader

/-!
# Reading rules

A rule is four fields, an action word and parameters. A line with its action word elsewhere is
refused, and its word is looked for so that the refusal can say what is missing or too much.

* `Rule.read`       the rule of the tokens of a line;
* `Rule.misplaced`  the findings on tokens without an action word in the fifth place.
-/

namespace QubePolicy.Rule

/-! ## the four fields -/

def fieldFindings : List Token → List Finding
  | [] => []
  | service :: rest => service.readService.findings ++
    match rest with
    | [] => []
    | argument :: rest => argument.readArgument.findings ++
      match rest with
      | [] => []
      | source :: rest => (source.readQube .source).findings ++
        match rest with
        | [] => []
        | destination :: _ => (destination.readQube .destination).findings

/-! ## lines whose action is not in its place -/

def isActionWord (t : Token) : Bool := (Decision.ofWord? t.value).isSome

/-- The findings on tokens with an action word after `head`, and `head` not of four tokens: the
fields that are missing before the word, or each token that is too much there. -/
def misplacedWord (head : List Token) (word : Token) (parameters : List Token) : List Finding :=
  (if head.length < 4 then
    [⟨.missingBeforeAction ((Field.positional.take 4).drop head.length), .token word⟩] else []) ++
  ((head.drop 4).map fun t => ⟨.unexpectedBeforeAction t.value, .token t⟩) ++
  fieldFindings head ++
  (Action.read word parameters).findings

/-- The findings on tokens without any action word: the missing fields, or the fifth token. -/
def noWord (tokens : List Token) : List Finding :=
  (match tokens.drop 4 with
    | [] => ⟨.missingFields (Field.positional.drop tokens.length), .after tokens⟩
    | t :: _ => ⟨.unknownAction t.value, .token t⟩) ::
  fieldFindings tokens

/-- The findings on tokens whose fifth is no action word; the first action word counts. -/
def misplaced (tokens : List Token) : List Finding :=
  match tokens.dropWhile (!isActionWord ·) with
  | word :: parameters => misplacedWord (tokens.takeWhile (!isActionWord ·)) word parameters
  | [] => noWord tokens

/-! ## rules -/

/-- The rule of the tokens of a line. Every token is judged, so that all that is wrong with the
line is told at once. -/
def read : List Token → Checked Rule
  | service :: argument :: source :: destination :: word :: parameters =>
    if isActionWord word then
      Rule.mk <$> service.readService <*> argument.readArgument <*> source.readQube .source <*>
        destination.readQube .destination <*> Action.read word parameters
    else
      .invalid (misplaced (service :: argument :: source :: destination :: word :: parameters))
  | tokens => .invalid (misplaced tokens)

end QubePolicy.Rule
