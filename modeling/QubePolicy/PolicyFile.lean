import QubePolicy.Line

/-!
# Policy files

A policy file is a list of raw lines; all that is known of the lines is read off their text, so
numbers follow position and no reading is out of date.

* `PolicyFile`            name, permission to include, raw lines, and whether a line feed ends
                          the text;
* `PolicyFile.ofText`, `PolicyFile.text`   between a file and its text;
* `PolicyFile.lines`, `PolicyFile.rules`   what the lines say.
-/

namespace QubePolicy

structure PolicyFile where
  name : String
  allowIncludes : Bool
  raws : List String
  /-- whether the text of a file with lines ends with a line feed -/
  endsWithFeed : Bool
  deriving DecidableEq, Repr

namespace PolicyFile

/-! ## text -/

/-- The lines of a text and whether a line feed ends it. The empty text has no lines, and will
end with a line feed once it has some. -/
def linesOf (cs : List Char) : List (List Char) × Bool :=
  if cs = [] then ([], true)
  else if cs.getLast? = some '\n' then (Text.splitAt '\n' cs.dropLast, true)
  else (Text.splitAt '\n' cs, false)

def ofText (name : String) (allowIncludes : Bool) (text : String) : PolicyFile :=
  let (raws, endsWithFeed) := linesOf text.toList
  ⟨name, allowIncludes, raws.map String.ofList, endsWithFeed⟩

@[simp] theorem name_ofText (name : String) (allowIncludes : Bool) (text : String) :
    (ofText name allowIncludes text).name = name := rfl

@[simp] theorem allowIncludes_ofText (name : String) (allowIncludes : Bool) (text : String) :
    (ofText name allowIncludes text).allowIncludes = allowIncludes := rfl

def empty (name : String) (allowIncludes : Bool) : PolicyFile := ofText name allowIncludes ""

def withText (f : PolicyFile) (text : String) : PolicyFile := ofText f.name f.allowIncludes text

/-- The text of a file: its lines joined by line feeds, and one at the end if it has one. -/
def text (f : PolicyFile) : String :=
  match f.raws with
  | [] => ""
  | raws =>
    String.ofList (Text.joinWith '\n' (raws.map String.toList) ++
      if f.endsWithFeed then ['\n'] else [])

/-! ## lines -/

def lines (f : PolicyFile) : List Line := Line.readFrom f.allowIncludes 1 f.raws

def line? (f : PolicyFile) (index : Nat) : Option Line := f.lines[index]?

def rules (f : PolicyFile) : List (Nat × Rule) :=
  f.lines.filterMap fun l =>
    match l.content with
    | .rule r => some (l.number, r)
    | _ => none

/-- Whether the file may be saved: every line is well-formed. -/
def canSave (f : PolicyFile) : Bool := f.lines.all fun l => !l.content.isMalformed

@[simp] theorem length_lines (f : PolicyFile) : f.lines.length = f.raws.length :=
  Line.length_readFrom _ _ _

theorem line?_eq (f : PolicyFile) (index : Nat) :
    f.line? index = f.raws[index]?.map (Line.read f.allowIncludes (index + 1)) := by
  rw [line?, lines, Line.getElem?_readFrom, Nat.add_comm]

theorem map_raw_lines (f : PolicyFile) : f.lines.map Line.raw = f.raws :=
  Line.map_raw_readFrom _ _ _

end PolicyFile

end QubePolicy
