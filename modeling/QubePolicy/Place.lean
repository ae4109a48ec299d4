import QubePolicy.Token

/-!
# Places in a line

What is found in a line is found at one of its tokens, or behind them.

* `Place`          a part of a line;
* `Place.spanBy`   its columns, where `shift c n` is the column `n` units behind the column `c`;
* `Place.span`     its columns by exact counting.
-/

namespace QubePolicy

/-- A range of columns, the end not included. -/
structure Span where
  column : Int
  endColumn : Int
  deriving DecidableEq, Repr

inductive Place where
  | token (t : Token)
  /-- from the beginning of one token to the end of another -/
  | tokens (first last : Token)
  /-- the value in a token `KEY=VALUE` -/
  | value (t : Token) (key text : String)
  /-- the one column behind a token -/
  | behind (t : Token)
  | start
  | line (raw : String)
  deriving DecidableEq, Repr

namespace Place

def all (first : Token) (rest : List Token) : Place := .tokens first (rest.getLast?.getD first)

/-- The place behind all tokens, the start of a line without tokens. -/
def after (tokens : List Token) : Place :=
  match tokens.getLast? with
  | some t => .behind t
  | none => .start

def spanBy (shift : Int → Nat → Int) : Place → Span
  | .token t => ⟨t.column, shift t.column (Text.units t.value)⟩
  | .tokens first last => ⟨first.column, shift last.column (Text.units last.value)⟩
  | .value t key text =>
    let column := shift (shift t.column (Text.units key)) 1
    ⟨column, shift column (Text.units text)⟩
  | .behind t =>
    let column := shift t.column (Text.units t.value)
    ⟨column, shift column 1⟩
  | .start => ⟨1, 2⟩
  | .line raw => ⟨1, shift 1 (Text.units raw)⟩

def span : Place → Span := spanBy fun column n => column + n

@[simp] theorem span_token (t : Token) : (Place.token t).span = ⟨t.column, t.endColumn⟩ := rfl

end Place

end QubePolicy
