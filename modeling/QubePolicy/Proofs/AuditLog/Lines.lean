import QubePolicy.AuditLog
import QubePolicy.Proofs.Json.OneLine
import QubePolicy.Proofs.Line.Shape
import QubePolicy.Proofs.Text.Utf8

/-!
# The lines of an audit log

A line is put behind bytes that end with a line feed: it is read as one more line, and the lines
before it are read as before.

* `AuditLog.IsLine`           a text that is read as one line;
* `AuditLog.isLine_entry`     the text of an entry is one;
* `AuditLog.Ended`            bytes of which the last line is ended;
* `AuditLog.linesIn_append`   what is put behind such bytes is read apart from them.
-/

namespace QubePolicy.AuditLog

/-! ## lines of a text -/

/-- A text that can be read back as a line: it has no line feed, and something to be seen. -/
structure IsLine (line : String) : Prop where
  lineFeed : '\n' ∉ line.toList
  visible : Text.trim line.toList ≠ []

theorem linesOf_append (text rest : String) :
    linesOf (text ++ "\n" ++ rest) = linesOf text ++ linesOf rest := by
  have hlist : (text ++ "\n" ++ rest).toList = text.toList ++ '\n' :: rest.toList := by
    simp
  rw [linesOf, hlist, Text.splitAt_append, List.filter_append, List.map_append]
  rfl

theorem linesOf_ended (text : String) : linesOf (text ++ "\n") = linesOf text := by
  have happend := linesOf_append text ""
  rwa [String.append_empty, show linesOf "" = [] from rfl, List.append_nil] at happend

theorem linesOf_line {line : String} (h : IsLine line) : linesOf line = [line] := by
  have hvisible : (Text.trim line.toList).isEmpty = false := List.isEmpty_eq_false_iff.mpr h.visible
  simp [linesOf, Text.splitAt_of_not_mem h.lineFeed, hvisible, String.ofList_toList]

/-- **The text of an entry is a line.** -/
theorem isLine_entry (order : List Entry.Member) (e : Entry) : IsLine (e.toJson order).render := by
  refine ⟨?_, ?_⟩
  · rw [Json.render, String.toList_ofList]
    exact Json.lineFeed_not_mem_renderChars _
  · rw [Json.render, String.toList_ofList, Entry.toJson, Json.renderChars]
    have hbrace : Text.isBlank '\x7b' = false := by decide
    show Text.trim ([] ++ '\x7b' :: _) ≠ []
    rw [Text.trim_eq_cons (List.forall_mem_nil _) hbrace]
    exact List.cons_ne_nil _ _

/-! ## lines of bytes -/

/-- The last line is ended; bytes that are none have no line to be ended. -/
def Ended (bytes : List UInt8) : Prop := bytes = [] ∨ bytes.getLast? = some 10

def linesIn (bytes : List UInt8) : List String := linesOf (Text.Utf8.decode bytes)

/-- **What is put behind ended lines is read apart from them.** -/
theorem linesIn_append {bytes : List UInt8} (h : Ended bytes) (rest : List UInt8) :
    linesIn (bytes ++ rest) = linesIn bytes ++ linesIn rest := by
  rcases h with rfl | h
  · rfl
  · obtain ⟨⟨text, htext⟩, happend⟩ := Text.Utf8.decode_append_of_lineFeed h
    rw [linesIn, happend, htext, linesOf_append, linesIn, linesIn, htext, linesOf_ended]

theorem linesIn_line {line : String} (h : IsLine line) :
    linesIn (Text.Utf8.encode (line ++ "\n")) = [line] := by
  rw [linesIn, Text.Utf8.decode_encode, linesOf_ended, linesOf_line h]

/-- Behind a line that is not ended no line begins. -/
example : "second" ∉ linesIn (Text.Utf8.encode "first" ++ Text.Utf8.encode ("second" ++ "\n")) := by
  decide

theorem ended_append_line (bytes : List UInt8) (line : String) :
    Ended (bytes ++ Text.Utf8.encode (line ++ "\n")) := by
  have hlast : Text.Utf8.encode (line ++ "\n") = Text.Utf8.encode line ++ [10] := by
    unfold Text.Utf8.encode
    rw [String.toList_append, List.flatMap_append]
    rfl
  rw [hlast, ← List.append_assoc]
  exact .inr List.getLast?_concat

end QubePolicy.AuditLog
