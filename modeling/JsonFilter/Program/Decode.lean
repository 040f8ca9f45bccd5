import JsonFilter.Program.Basic
import JsonFilter.Program.Record
import JsonFilter.Value.Document

/-!
# Decoding programs

A program in record form is a JSON document: a list of records, or one record that is an object.  Every
record gives one operation, except that a pick may carry an index and an explosion that follow it.
Only the fields that belong to the sort of a record are decoded into programs of their own.
-/

namespace JsonFilter

/-- Why a document or a text is no program. -/
inductive DecodeError where
  /-- No operation has the given name. -/
  | unknownOpcode (tag : String)
  /-- A field that the operation needs is not there. -/
  | missingField (code : Opcode) (field : RecordField)
  /-- Something other than a list or an object stands in the place of a program. -/
  | malformed (found : Kind)
  /-- A record or a part of it has the wrong shape. -/
  | shape (fault : ShapeFault)
  /-- The text is no JSON document. -/
  | notJson

/-- The message for a failure to decode. -/
def DecodeError.message : DecodeError → String
  | unknownOpcode tag => "Unknown op code: " ++ tag
  | missingField code field =>
    "Op code '" ++ code.name ++ "' is missing field '" ++ field.name ++ "'"
  | malformed found =>
    "Malformed program: expected an opcode or a list of opcodes, found " ++ found.name
  | shape fault => "Invalid program JSON: " ++ fault.message
  | notJson => "Invalid program JSON: not a JSON document"

/-- The kind of value that a document stands for. -/
def Json.kind : Json → Kind
  | .null => .null
  | .bool _ => .boolean
  | .integer _ | .float _ => .number
  | .string _ => .string
  | .array _ => .array
  | .object _ => .object

namespace Program

/-! ## One record -/

/-- A decoder for programs. -/
abbrev Decoder := Json → Except DecodeError Program

/-- The content of a field that the operation needs. -/
def required {α : Type} (code : Opcode) (field : RecordField) :
    Option α → Except DecodeError α
  | some content => .ok content
  | none => .error (.missingField code field)

/-- The operations of a record of the given sort, whose own programs are read by `decode`. -/
def opsOfRecord (decode : Decoder) (record : Record) (code : Opcode) :
    Except DecodeError (List Op) :=
  let strict := record.strict?.getD true
  match code with
  | .currentContext => .ok [.currentContext]
  | .literal => .ok [.literal ((record.value?.map Value.ofJson).getD .null)]
  | .pick => do
    let key ← required code .key record.key?
    let index := record.index?.toList.map fun position => Op.index position strict
    let explode := if record.explode then [Op.explode strict] else []
    return .pick key strict :: (index ++ explode)
  | .index => do
    let position ← required code .index record.index?
    return [.index position strict]
  | .slice => .ok [.slice record.start? record.stop? strict]
  | .explode => .ok [.explode strict]
  | .createArray => do
    let elements ← record.values.mapM decode
    return [.createArray elements]
  | .createObject => do
    let entries ← record.entries.mapM fun entry => do return (entry.1, ← decode entry.2)
    return [.createObject entries]
  | .pipe => do
    -- Both fields must be there before either is decoded.
    let source ← required code .source record.source?
    let target ← required code .target record.target?
    return [.pipe (← decode source) (← decode target)]

/-- The operations of the record that a document holds. -/
def decodeRecord (decode : Decoder) (document : Json) : Except DecodeError (List Op) := do
  let record ← (Record.ofJson document).mapError .shape
  let tag ← record.tag.mapError .shape
  match Opcode.ofName? tag with
  | some code => opsOfRecord decode record code
  | none => .error (.unknownOpcode tag)

/-! ## Whole programs -/

/-- The program that a document holds, where `decode` reads the programs inside its records. -/
def decodeWith (decode : Decoder) : Decoder
  | .array records => do return (← records.mapM (decodeRecord decode)).flatten
  | .object members => decodeRecord decode (.object members)
  | other => .error (.malformed other.kind)

/-- The program that a document of at most the given nesting holds. -/
def decodeNested : Nat → Decoder
  | 0 => fun document => .error (.malformed document.kind)
  | depth + 1 => decodeWith (decodeNested depth)

/-- The program that a document holds. -/
def ofJson (document : Json) : Except DecodeError Program :=
  decodeNested document.nesting document

/-- The program that a JSON text holds. -/
def parse (text : String) : Except DecodeError Program :=
  match Json.parse? text with
  | some document => ofJson document
  | none => .error .notJson

end Program

end JsonFilter
