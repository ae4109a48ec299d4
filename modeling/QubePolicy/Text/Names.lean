import QubePolicy.Text.Split

/-!
# Names

The names of a policy are runs of ASCII letters, digits and a few marks.

* `isServiceName`   two or more words joined by dots, such as `qubes.Filecopy`;
* `isQubeName`      letters, digits and `-`;
* `isTagName`       letters, digits and `_`, `.`, `:`, `-`;
* `isTypeName`, `isFileName`   words: letters, digits, `_` and `-`.
-/

namespace QubePolicy.Text

/-! ## characters -/

def isWordChar (c : Char) : Bool := c.isAlphanum || c == '_' || c == '-'

def isQubeChar (c : Char) : Bool := c.isAlphanum || c == '-'

def isTagChar (c : Char) : Bool := isWordChar c || c == '.' || c == ':'

/-! ## names -/

def isRunOf (p : Char → Bool) (cs : List Char) : Bool := !cs.isEmpty && cs.all p

def isQubeName (s : String) : Bool := isRunOf isQubeChar s.toList

def isTagName (s : String) : Bool := isRunOf isTagChar s.toList

def isTypeName (s : String) : Bool := isRunOf isWordChar s.toList

/-- The name of a policy file inside its directory, without the extension. -/
def isFileName (s : String) : Bool := isRunOf isWordChar s.toList

/-- Two or more words joined by dots. -/
def isServiceName (s : String) : Bool :=
  let parts := splitAt '.' s.toList
  decide (2 ≤ parts.length) && parts.all (isRunOf isWordChar)

end QubePolicy.Text
