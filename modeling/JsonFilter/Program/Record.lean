import JsonFilter.Program.Shape

/-!
# Records of operations

The record form of an operation: a JSON object with a field for the sort of the operation and fields
for its parts, or an array of all fields in a fixed order.  All fields are read whatever the sort, each
with its own shape; fields with other names are passed over.
-/

namespace JsonFilter

/-! ## Entries of object constructors -/

/-- The fields of an entry. -/
inductive EntryField where
  | key
  | value

/-- An entry of which some fields have been read. -/
structure EntryDraft where
  key? : Option String := none
  value? : Option Json := none

namespace EntryDraft

/-- Reads a named field; other names are passed over. -/
def setNamed (draft : EntryDraft) : String × Json → Except ShapeFault EntryDraft
  | ("key", json) => do return { draft with key? := some (← json.asText) }
  | ("value", json) => .ok { draft with value? := some json }
  | _ => .ok draft

/-- The entry whose fields have all been read. -/
def finish (draft : EntryDraft) : Except ShapeFault (String × Json) :=
  match draft.key?, draft.value? with
  | none, _ => .error (.missingField "key")
  | _, none => .error (.missingField "value")
  | some key, some value => .ok (key, value)

end EntryDraft

/-- The name and the program, still a document, of an entry: an object, or an array of the two. -/
def Json.asEntry : Json → Except ShapeFault (String × Json)
  | .object members => do (← members.foldlM EntryDraft.setNamed {}).finish
  | .array [] => .error (.tooShort 0 .entryRecord 2)
  | .array [key] => do
    let _ ← key.asText
    .error (.tooShort 1 .entryRecord 2)
  | .array (key :: value :: rest) => do
    let key ← key.asText
    if rest.isEmpty then .ok (key, value) else .error (.tooLong (rest.length + 2))
  | other => .error (.invalidType other .entryRecord)

/-! ## Fields of operations -/

/-- The fields of the record of an operation. -/
inductive RecordField where
  | op
  | key
  | strict
  | index
  | explode
  | start
  | stop
  | value
  | values
  | entries
  | source
  | target
  deriving DecidableEq

namespace RecordField

/-- The name of a field. -/
def name : RecordField → String
  | op => "op"
  | key => "key"
  | strict => "strict"
  | index => "index"
  | explode => "explode"
  | start => "start"
  | stop => "end"
  | value => "value"
  | values => "values"
  | entries => "entries"
  | source => "in"
  | target => "out"

/-- All fields, in the order of positional records. -/
def all : List RecordField :=
  [op, key, strict, index, explode, start, stop, value, values, entries, source, target]

/-- The field with a given name. -/
def ofName? (name : String) : Option RecordField :=
  all.find? fun field => field.name == name

/-- Every field is found by its name. -/
theorem ofName?_name (field : RecordField) : ofName? field.name = some field := by
  cases field <;> decide

/-- Whether a positional record may end before the field. -/
def hasDefault : RecordField → Bool
  | explode | values | entries => true
  | _ => false

end RecordField

/-! ## Records -/

/-- What the record of an operation tells, with the name of its sort as the tag.  Null stands for an absent
field, except for the three fields that have a default of their own. -/
structure Record where
  tag? : Option String := none
  key? : Option String := none
  strict? : Option Bool := none
  index? : Option Int := none
  explode : Bool := false
  start? : Option Int := none
  stop? : Option Int := none
  value? : Option Json := none
  values : List Json := []
  entries : List (String × Json) := []
  source? : Option Json := none
  target? : Option Json := none

namespace Record

/-- Reads one field of a record. -/
def set (record : Record) (field : RecordField) (json : Json) : Except ShapeFault Record :=
  match field with
  | .op => do return { record with tag? := some (← json.asText) }
  | .key => do return { record with key? := ← Json.orNull Json.asText json }
  | .strict => do return { record with strict? := ← Json.orNull Json.asBool json }
  | .index => do return { record with index? := ← Json.orNull Json.asInt64 json }
  | .explode => do return { record with explode := ← json.asBool }
  | .start => do return { record with start? := ← Json.orNull Json.asInt64 json }
  | .stop => do return { record with stop? := ← Json.orNull Json.asInt64 json }
  | .value => do return { record with value? := ← Json.orNull .ok json }
  | .values => do return { record with values := ← json.asList }
  | .entries => do return { record with entries := ← (← json.asList).mapM Json.asEntry }
  | .source => do return { record with source? := ← Json.orNull .ok json }
  | .target => do return { record with target? := ← Json.orNull .ok json }

/-- Reads a named field; other names are passed over. -/
def setNamed (record : Record) (member : String × Json) : Except ShapeFault Record :=
  match RecordField.ofName? member.1 with
  | some field => record.set field member.2
  | none => .ok record

/-- The record whose fields are the items of an array, in the order of the fields. -/
def ofItems (items : List Json) : Except ShapeFault Record := do
  let record ← (RecordField.all.zip items).foldlM (fun record (field, json) => record.set field json) {}
  match (RecordField.all.drop items.length).findIdx? fun field => !field.hasDefault with
  | some skipped => .error (.tooShort (items.length + skipped) .opRecord RecordField.all.length)
  | none =>
    if RecordField.all.length < items.length then .error (.tooLong items.length) else .ok record

/-- The record that a document holds. -/
def ofJson : Json → Except ShapeFault Record
  | .object members => members.foldlM setNamed {}
  | .array items => ofItems items
  | other => .error (.invalidType other .opRecord)

/-- The sort of the operation, which every record must tell. -/
def tag (record : Record) : Except ShapeFault String :=
  match record.tag? with
  | some tag => .ok tag
  | none => .error (.missingField RecordField.op.name)

end Record

end JsonFilter
