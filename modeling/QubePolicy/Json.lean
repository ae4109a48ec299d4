import QubePolicy.Number

/-!
# JSON values

* `Json`            a value; an object keeps the order of its members;
* `Json.get?`       a member of an object;
* `Json.render`     the compact text of a value, with as few escapes as the format allows.
-/

namespace QubePolicy

inductive Json where
  | null
  | bool (value : Bool)
  | number (value : Number)
  | string (value : String)
  | array (items : List Json)
  | object (members : List (String × Json))

namespace Json

/-! ## members -/

def get? (key : String) : Json → Option Json
  | .object members => members.lookup key
  | _ => none

/-- The members with one more. A key that is there already keeps its place and takes the new
value. -/
def insert (key : String) (value : Json) (members : List (String × Json)) :
    List (String × Json) :=
  if members.any (·.1 == key) then
    members.map fun m => if m.1 == key then (key, value) else m
  else members ++ [(key, value)]

def string? : Json → Option String
  | .string s => some s
  | _ => none

def number? : Json → Option Number
  | .number n => some n
  | _ => none

/-! ## text -/

def escape (c : Char) : List Char :=
  if c = '"' then ['\\', '"']
  else if c = '\\' then ['\\', '\\']
  else if c = '\x08' then ['\\', 'b']
  else if c = '\x0c' then ['\\', 'f']
  else if c = '\n' then ['\\', 'n']
  else if c = '\r' then ['\\', 'r']
  else if c = '\t' then ['\\', 't']
  else if c.toNat < 0x20 then
    ['\\', 'u', '0', '0', Nat.digitChar (c.toNat / 16), Nat.digitChar (c.toNat % 16)]
  else [c]

def renderString (s : String) : List Char := '"' :: (s.toList.flatMap escape ++ ['"'])

/-- A number that is beyond all bounds has no text of its own and is written as `null`. -/
def renderNumber : Number → List Char
  | .infinite _ => "null".toList
  | n => n.renderChars

mutual

def renderChars : Json → List Char
  | .null => "null".toList
  | .bool true => "true".toList
  | .bool false => "false".toList
  | .number n => renderNumber n
  | .string s => renderString s
  | .array items => '[' :: (renderItems items ++ [']'])
  | .object members => '\x7b' :: (renderMembers members ++ ['\x7d'])

def renderItems : List Json → List Char
  | [] => []
  | [v] => renderChars v
  | v :: w :: vs => renderChars v ++ ',' :: renderItems (w :: vs)

def renderMembers : List (String × Json) → List Char
  | [] => []
  | [(k, v)] => renderString k ++ ':' :: renderChars v
  | (k, v) :: m :: ms => renderString k ++ ':' :: (renderChars v ++ ',' :: renderMembers (m :: ms))

end

def render (v : Json) : String := String.ofList v.renderChars

end Json

end QubePolicy
