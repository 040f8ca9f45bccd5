import JsonFilter.Decimal.Layout
import JsonFilter.Json.Basic
import JsonFilter.Text.Printable

/-!
# Faults of shape

What is wrong with a well-formed JSON document that does not have the expected shape, and the message
that tells it.
-/

namespace JsonFilter

/-- What a part of a document is expected to be. -/
inductive Shape where
  | text
  | boolean
  | int64
  | size
  | sequence
  /-- The record of an operation. -/
  | opRecord
  /-- An entry of an object constructor. -/
  | entryRecord
  /-- The options of an evaluation. -/
  | options
  deriving DecidableEq

/-- The words for an expected shape. -/
def Shape.words : Shape → String
  | text => "a string"
  | boolean => "a boolean"
  | int64 => "i64"
  | size => "usize"
  | sequence => "a sequence"
  | opRecord => "struct RawOpcode"
  | entryRecord => "struct RawEntry"
  | options => "struct EvaluatorOptions"

/-- The words for a document that does not have the expected shape. -/
def Json.words : Json → String
  | .null => "null"
  | .bool b => "boolean `" ++ (if b then "true" else "false") ++ "`"
  | .integer n => "integer `" ++ Text.decimal n ++ "`"
  | .float x => "floating point `" ++ String.ofList (FloatLayout.compact.text x) ++ "`"
  | .string text => "string " ++ Text.reveal text
  | .array _ => "sequence"
  | .object _ => "map"

/-- A way in which a document misses its shape. -/
inductive ShapeFault where
  /-- The document is of another type. -/
  | invalidType (found : Json) (expected : Shape)
  /-- The document is an integer out of range. -/
  | invalidValue (found : Int) (expected : Shape)
  /-- A field that must be there is not. -/
  | missingField (field : String)
  /-- A positional record of `count` fields ends at the given position. -/
  | tooShort (position : Nat) (expected : Shape) (count : Nat)
  /-- A positional record has more items than fields. -/
  | tooLong (length : Nat)

namespace ShapeFault

/-- The message for a fault. -/
def message : ShapeFault → String
  | invalidType found expected => "invalid type: " ++ found.words ++ ", expected " ++ expected.words
  | invalidValue found expected =>
    "invalid value: integer `" ++ Text.decimal found ++ "`, expected " ++ expected.words
  | missingField field => "missing field `" ++ field ++ "`"
  | tooShort position expected count =>
    "invalid length " ++ Text.decimal position ++ ", expected " ++ expected.words ++ " with "
      ++ Text.decimal count ++ " elements"
  | tooLong length =>
    "invalid length " ++ Text.decimal length ++ ", expected fewer elements in array"

end ShapeFault

namespace Json

/-! ## Reading the parts of records -/

/-- The text of a string. -/
def asText : Json → Except ShapeFault String
  | .string text => .ok text
  | other => .error (.invalidType other .text)

/-- The truth value of a boolean. -/
def asBool : Json → Except ShapeFault Bool
  | .bool b => .ok b
  | other => .error (.invalidType other .boolean)

/-- The value of an integer of 64 bits with sign. -/
def asInt64 : Json → Except ShapeFault Int
  | .integer n =>
    if -Nat.pow 2 63 ≤ n ∧ n < Nat.pow 2 63 then .ok n else .error (.invalidValue n .int64)
  | other => .error (.invalidType other .int64)

/-- The value of an integer of 64 bits without sign. -/
def asSize : Json → Except ShapeFault Nat
  | .integer n =>
    if 0 ≤ n ∧ n < Nat.pow 2 64 then .ok n.toNat else .error (.invalidValue n .size)
  | other => .error (.invalidType other .size)

/-- The items of an array. -/
def asList : Json → Except ShapeFault (List Json)
  | .array items => .ok items
  | other => .error (.invalidType other .sequence)

/-- The result of a reader, or nothing for null. -/
def orNull {α : Type} (read : Json → Except ShapeFault α) : Json → Except ShapeFault (Option α)
  | .null => .ok none
  | other => (read other).map some

end Json

end JsonFilter
