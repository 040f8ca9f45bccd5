import JsonFilter.Decimal.Layout
import JsonFilter.Text.Quoted
import JsonFilter.Text.Writer
import JsonFilter.Value.Basic

/-!
# Texts of values

Two texts of a value, both JSON without blanks.  The compact text writes great and tiny numbers in
scientific form; the plain text writes all digits of every number, and escapes backspace and form feed
by their codes.
-/

namespace JsonFilter.Value

/-- The choices in which the texts of values differ. -/
structure Style where
  /-- The letters that escape characters in strings and names. -/
  letters : Text.EscapeLetters
  /-- The text of a number. -/
  number : Binary64 → List Char

/-- The compact text of a number: nothing if it is not finite, an integer if it is whole and between
-2⁶³ and 2⁶³, and otherwise the shortest decimal in the compact layout. -/
def compactNumber (x : Binary64) : List Char :=
  if x.IsFinite then
    match x.toInt64? with
    | some n => Text.ofInt n
    | none => FloatLayout.compact.text x
  else Text.nullWord

/-- The plain text of a number: nothing if it is not finite, an integer if it is whole and below 10¹⁷
in size, and otherwise the shortest decimal with all its digits. -/
def plainNumber (x : Binary64) : List Char :=
  if x.IsFinite then
    match x.toInt? with
    | some n => if n.natAbs < Nat.pow 10 17 then Text.ofInt n else FloatLayout.plain.text x
    | none => FloatLayout.plain.text x
  else Text.nullWord

/-- The choices of the compact text. -/
def Style.compact : Style where
  letters := Text.allLetters
  number := compactNumber

/-- The choices of the plain text. -/
def Style.plain : Style where
  letters := Text.fewLetters
  number := plainNumber

mutual

/-- The writer of a text of a value. -/
def writer (style : Style) : Value → Text.Writer
  | null => Text.put Text.nullWord
  | bool b => Text.put (Text.ofBool b)
  | number x => Text.put (style.number x)
  | string text => Text.put (Text.quote style.letters text.toList)
  | array items => Text.bracketed (itemWriters style items)
  | object fields => Text.braced (fieldWriters style fields)

/-- The writers of the texts of some values. -/
def itemWriters (style : Style) : List Value → List Text.Writer
  | [] => []
  | v :: rest => writer style v :: itemWriters style rest

/-- The writers of the texts of some fields. -/
def fieldWriters (style : Style) : List (String × Value) → List Text.Writer
  | [] => []
  | (key, v) :: rest =>
    Text.named (Text.quote style.letters key.toList) (writer style v) :: fieldWriters style rest

end

/-- The compact text of a value. -/
def compactText (v : Value) : String :=
  String.ofList (v.writer .compact [])

/-- The plain text of a value. -/
def plainText (v : Value) : String :=
  String.ofList (v.writer .plain [])

end JsonFilter.Value
