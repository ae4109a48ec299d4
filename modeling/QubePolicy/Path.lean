import QubePolicy.Text.Ends
import QubePolicy.Text.Split

/-!
# Paths

* `Path`              a place in the file tree, as the names on the way to it from the root;
* `Path.resolve`      the place that a text names, starting at another place. The names are
                      followed as text: `..` takes back the name before it;
* `Path.below?`       the names on the way from one place down to another;
* `Path.joined`       two texts joined to the text of one path, with `.`, `..` and empty names
                      worked out;
* `Path.parentText`   the text of the directory that a text names something in.
-/

namespace QubePolicy

structure Path where
  names : List String
  deriving DecidableEq, Repr

namespace Path

def root : Path := ⟨[]⟩

def child (p : Path) (name : String) : Path := ⟨p.names ++ [name]⟩

def parent (p : Path) : Path := ⟨p.names.dropLast⟩

def name (p : Path) : String := p.names.getLast?.getD ""

def render (p : Path) : String := "/" ++ "/".intercalate p.names

/-- The names on the way from `base` down to a place at or below it. -/
def below? (base p : Path) : Option (List String) := Text.rest? base.names p.names

/-! ## texts -/

def pieces (text : String) : List String := (Text.splitAt '/' text.toList).map String.ofList

def isAbsolute (text : String) : Bool := text.toList.head? == some '/'

def step (names : List String) (piece : String) : List String :=
  if piece = "" || piece = "." then names
  else if piece = ".." then names.dropLast
  else names ++ [piece]

def resolve (base : Path) (text : String) : Path :=
  ⟨(pieces text).foldl step (if isAbsolute text then [] else base.names)⟩

/-! ## joining texts -/

/-- One piece of a text worked out behind the pieces before it. Above the root there is only the
root; elsewhere a `..` with nothing to take back stays. -/
def settle (absolute : Bool) (before : List String) (piece : String) : List String :=
  if piece = "" || piece = "." then before
  else if piece = ".." then
    match before.getLast? with
    | none => if absolute then [] else [".."]
    | some last => if last = ".." then before ++ [".."] else before.dropLast
  else before ++ [piece]

/-- The text of a path with its pieces worked out; a slash at its end stays. -/
def normalized (text : String) : String :=
  let absolute := isAbsolute text
  let body := "/".intercalate ((pieces text).foldl (settle absolute) [])
  let slash := if text.toList.getLast? = some '/' then "/" else ""
  if absolute then "/" ++ (if body = "" then "" else body ++ slash)
  else (if body = "" then "." else body) ++ slash

def joined (a b : String) : String :=
  normalized ("/".intercalate ([a, b].filter (· != "")))

/-- The text before the last name of a text, slashes around that name left out. -/
def parentText (text : String) : String :=
  match (text.toList.reverse.dropWhile (· == '/')).dropWhile (· != '/') with
  | [] => if isAbsolute text then "/" else "."
  | ['/'] => "/"
  | _ :: before => String.ofList before.reverse

end Path

end QubePolicy
