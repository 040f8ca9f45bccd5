import JsonFilter.Decimal.Layout
import JsonFilter.Json.Basic
import JsonFilter.Text.Quoted
import JsonFilter.Text.Writer

/-!
# Writing JSON texts

The compact text of a document: no blanks, members in their order, and all escape letters in use.
-/

namespace JsonFilter

namespace Json

/-- The compact text of a number; numbers that are not finite have none and are written as nothing. -/
def floatText (x : Binary64) : List Char :=
  if x.IsFinite then FloatLayout.compact.text x else Text.nullWord

mutual

/-- The writer of the compact text of a document. -/
def writer : Json → Text.Writer
  | null => Text.put Text.nullWord
  | bool b => Text.put (Text.ofBool b)
  | integer n => Text.put (Text.ofInt n)
  | float x => Text.put (floatText x)
  | string text => Text.put (Text.quote Text.allLetters text.toList)
  | array items => Text.bracketed (itemWriters items)
  | object members => Text.braced (memberWriters members)

/-- The writers of some documents. -/
def itemWriters : List Json → List Text.Writer
  | [] => []
  | item :: rest => writer item :: itemWriters rest

/-- The writers of the members of an object. -/
def memberWriters : List (String × Json) → List Text.Writer
  | [] => []
  | (key, item) :: rest =>
    Text.named (Text.quote Text.allLetters key.toList) (writer item) :: memberWriters rest

end

/-- The compact text of a document. -/
def text (document : Json) : String :=
  String.ofList (document.writer [])

end Json

end JsonFilter
