import JsonFilter.Program.Record
import JsonFilter.Proofs.Fields
import JsonFilter.Proofs.Traversal
import Mathlib.Logic.Function.Basic

/-!
# Records field by field

A record is read in one pass over the parts of its document, whatever their order.  What it tells in the end
depends on each field alone: a field that is there tells what it holds, a field that is not there keeps its
default.  An array is read as the object of its items under the names of the fields.

* `Record.get`, `Record.ofContents`: a record is a family of contents, one for each field;
* `Json.fields`, `Json.content`: the named parts of a document, and what they tell in a field;
* `Record.ofJson_eq_ok_iff`: a record has been read exactly if it tells, field by field, what its document tells;
* `Record.exists_ofJson_iff`: a record can be read exactly if each of its fields can.
-/

namespace JsonFilter

/-! ## The contents of a record -/

namespace RecordField

/-- What a record tells in a field. -/
@[reducible]
def Content : RecordField → Type
  | op | key => Option String
  | strict => Option Bool
  | index | start | stop => Option Int
  | explode => Bool
  | value | source | target => Option Json
  | values => List Json
  | entries => List (String × Json)

/-- Reads the content of a field. -/
def read : (field : RecordField) → Json → Except ShapeFault field.Content
  | op => fun json => some <$> json.asText
  | key => Json.orNull Json.asText
  | strict => Json.orNull Json.asBool
  | index | start | stop => Json.orNull Json.asInt64
  | explode => Json.asBool
  | value | source | target => Json.orNull .ok
  | values => Json.asList
  | entries => fun json => do (← json.asList).mapM Json.asEntry

theorem ofName?_eq_some_iff {name : String} {field : RecordField} :
    ofName? name = some field ↔ field.name = name := by
  constructor
  · intro h
    simpa using List.find?_some h
  · rintro rfl
    exact ofName?_name field

theorem name_inj {field other : RecordField} : field.name = other.name ↔ field = other := by
  rw [← ofName?_eq_some_iff, ofName?_name, Option.some_inj, eq_comm]

theorem mem_all (field : RecordField) : field ∈ all := by
  cases field <;> decide

end RecordField

namespace Record

/-- The content of a field. -/
def get (record : Record) : (field : RecordField) → field.Content
  | .op => record.tag?
  | .key => record.key?
  | .strict => record.strict?
  | .index => record.index?
  | .explode => record.explode
  | .start => record.start?
  | .stop => record.stop?
  | .value => record.value?
  | .values => record.values
  | .entries => record.entries
  | .source => record.source?
  | .target => record.target?

/-- The record with the given contents. -/
def ofContents (contents : (field : RecordField) → field.Content) : Record where
  tag? := contents .op
  key? := contents .key
  strict? := contents .strict
  index? := contents .index
  explode := contents .explode
  start? := contents .start
  stop? := contents .stop
  value? := contents .value
  values := contents .values
  entries := contents .entries
  source? := contents .source
  target? := contents .target

@[simp] theorem get_ofContents (contents : (field : RecordField) → field.Content)
    (field : RecordField) : (ofContents contents).get field = contents field := by
  cases field <;> rfl

/-- Records that tell the same in every field are the same. -/
theorem eq_of_get {record other : Record} (h : ∀ field, record.get field = other.get field) :
    record = other :=
  congrArg ofContents (funext h)

/-! ## Reading one field -/

/-- Reading a field replaces its content. -/
theorem set_eq_bind (record : Record) (field : RecordField) (json : Json) :
    record.set field json = field.read json >>= fun content =>
      .ok (ofContents (Function.update record.get field content)) := by
  cases field with
  | op => cases h : json.asText <;> simp [set, RecordField.read, h] <;> rfl
  | entries =>
    simp only [set, RecordField.read, bind_assoc]
    rfl
  | _ => rfl

theorem set_eq_ok_iff {record result : Record} {field : RecordField} {json : Json} :
    record.set field json = .ok result ↔ field.read json = .ok (result.get field) ∧
      ∀ other, other ≠ field → result.get other = record.get other := by
  rw [set_eq_bind, Traverse.bind_eq_ok_iff]
  constructor
  · rintro ⟨content, hcontent, h⟩
    obtain rfl := Except.ok.inj h
    rw [get_ofContents, Function.update_self]
    refine ⟨hcontent, fun other hother => ?_⟩
    rw [get_ofContents, Function.update_of_ne hother]
  · rintro ⟨hread, hothers⟩
    refine ⟨_, hread, congrArg Except.ok (eq_of_get fun other => ?_)⟩
    rw [get_ofContents]
    by_cases hother : other = field
    · subst hother
      rw [Function.update_self]
    · rw [Function.update_of_ne hother, hothers other hother]

/-- A named part of a record is read by the field of its name and leaves all other fields alone. -/
theorem get_of_setNamed {record result : Record} {member : String × Json}
    (h : record.setNamed member = .ok result) (field : RecordField) :
    if member.1 = field.name then field.read member.2 = .ok (result.get field)
    else result.get field = record.get field := by
  unfold setNamed at h
  split at h
  · next named hnamed =>
    obtain ⟨hread, hothers⟩ := set_eq_ok_iff.mp h
    have hname := RecordField.ofName?_eq_some_iff.mp hnamed
    split
    · next heq =>
      rw [heq, RecordField.ofName?_name] at hnamed
      obtain rfl := Option.some.inj hnamed
      exact hread
    · next hne =>
      refine hothers field ?_
      rintro rfl
      exact hne hname.symm
  · next hnone =>
    obtain rfl := Except.ok.inj h
    rw [if_neg]
    rintro heq
    rw [heq, RecordField.ofName?_name] at hnone
    cases hnone

end Record

/-! ## The parts of a document -/

namespace Json

/-- The named parts of a record: the members of an object, or the items of an array under the names of the
fields in their order. -/
def fields : Json → Fields Json
  | object members => members
  | array items => (RecordField.all.map RecordField.name).zip items
  | _ => []

/-- The fields of a positional record, from the first item to the last. -/
example : RecordField.all.map RecordField.name = ["op", "key", "strict", "index", "explode", "start", "end",
    "value", "values", "entries", "in", "out"] := rfl

/-- The part of a record with the name of a field. -/
def field? (json : Json) (field : RecordField) : Option Json :=
  Fields.get? field.name json.fields

/-- What a document tells in a field of a record: nothing but the default if the field is not there. -/
def content (json : Json) (field : RecordField) : Except ShapeFault field.Content :=
  (json.field? field).elim (.ok (Record.get {} field)) field.read

/-- A document is an object, or an array with one item for each field. -/
def HasRecordForm : Json → Prop
  | object _ => True
  | array items => items.length = RecordField.all.length
  | _ => False

theorem nodup_keys_fields_array (items : List Json) : (Fields.keys (array items).fields).Nodup := by
  have hall : (RecordField.all.map RecordField.name).Nodup := by decide
  rw [fields, Fields.keys_zip]
  exact hall.sublist (List.take_sublist _ _)

end Json

namespace Record

/-! ## Reading a whole record -/

/-- The record of an array is read from its items under the names of the fields. -/
theorem ofItems_eq_ok_iff {items : List Json} {record : Record} :
    ofItems items = .ok record ↔ items.length = RecordField.all.length ∧
      (Json.array items).fields.foldlM setNamed {} = .ok record := by
  have hfold : (RecordField.all.zip items).foldlM (fun record part => record.set part.1 part.2) {} =
      (Json.array items).fields.foldlM setNamed ({} : Record) := by
    rw [Json.fields, List.zip_map_left, List.foldlM_map]
    simp only [setNamed, Prod.map, RecordField.ofName?_name, id]
  -- The last field has no default, so an array with fewer items is refused.
  have hshort : ∀ n < RecordField.all.length,
      ((RecordField.all.drop n).findIdx? fun field => !field.hasDefault).isSome := by decide
  rw [ofItems, Traverse.bind_eq_ok_iff]
  constructor
  · rintro ⟨read, hread, h⟩
    split at h
    · cases h
    · next hnone =>
      split at h
      · cases h
      · next hlong =>
        obtain rfl := Except.ok.inj h
        refine ⟨Nat.le_antisymm (Nat.le_of_not_lt hlong) (Nat.le_of_not_lt fun hlt => ?_),
          hfold.symm.trans hread⟩
        have hsome := hshort _ hlt
        rw [hnone] at hsome
        cases hsome
  · rintro ⟨hlength, h⟩
    refine ⟨record, hfold.trans h, ?_⟩
    rw [hlength, List.drop_length]
    exact if_neg (Nat.lt_irrefl _)

theorem ofJson_eq_ok_iff_foldlM {json : Json} {record : Record} :
    ofJson json = .ok record ↔ json.HasRecordForm ∧ json.fields.foldlM setNamed {} = .ok record := by
  cases json with
  | object members => exact (true_and _).symm.to_iff
  | array items => exact ofItems_eq_ok_iff
  | _ => simp [ofJson, Json.HasRecordForm]

/-- If every part of a document can be read, then so can all of them. -/
theorem exists_foldlM_setNamed {members : List (String × Json)}
    (h : ∀ member ∈ members, ∀ field, RecordField.ofName? member.1 = some field →
      ∃ content, field.read member.2 = .ok content) (start : Record) :
    ∃ record, members.foldlM setNamed start = .ok record := by
  refine Traverse.exists_foldlM (fun member hmember record => ?_) start
  unfold setNamed
  split
  · next field hfield =>
    obtain ⟨content, hcontent⟩ := h member hmember field hfield
    exact ⟨_, by rw [set_eq_bind, hcontent, Traverse.ok_bind]⟩
  · exact ⟨record, rfl⟩

variable {json : Json}

/-- A record has been read exactly if it tells in every field what the document tells in it. -/
theorem ofJson_eq_ok_iff (hnames : (Fields.keys json.fields).Nodup) {record : Record} :
    ofJson json = .ok record ↔
      json.HasRecordForm ∧ ∀ field, json.content field = .ok (record.get field) := by
  have hcontent : ∀ {result : Record}, json.fields.foldlM setNamed {} = .ok result →
      ∀ field, json.content field = .ok (result.get field) := fun hresult field =>
    Fields.elim_get?_of_foldlM (fun record : Record => record.get field) field.read
      (fun hnext => get_of_setNamed hnext field) hnames hresult
  rw [ofJson_eq_ok_iff_foldlM]
  refine and_congr_right fun _ => ⟨hcontent, fun h => ?_⟩
  have hparts : ∀ member ∈ json.fields, ∀ field, RecordField.ofName? member.1 = some field →
      ∃ content, field.read member.2 = .ok content := by
    intro member hmember field hfield
    have hget : json.field? field = some member.2 :=
      Fields.get?_of_mem hnames (RecordField.ofName?_eq_some_iff.mp hfield ▸ hmember)
    have hread := h field
    rw [Json.content, hget] at hread
    exact ⟨_, hread⟩
  obtain ⟨result, hresult⟩ := exists_foldlM_setNamed hparts {}
  obtain rfl : result = record :=
    eq_of_get fun field => Except.ok.inj ((hcontent hresult field).symm.trans (h field))
  exact hresult

/-- What holds of the default of a field and of all that can be read in it holds of the content of the field. -/
theorem get_of_ofJson (field : RecordField) {P : field.Content → Prop} (hdefault : P (get {} field))
    (hread : ∀ {part content}, field.read part = .ok content → P content) {record : Record}
    (h : ofJson json = .ok record) : P (record.get field) := by
  have hfold := (ofJson_eq_ok_iff_foldlM.mp h).2
  refine Traverse.foldlM_invariant (fun record : Record => P (record.get field)) ?_ hdefault hfold
  intro before member after _ hbefore hset
  have hget := get_of_setNamed hset field
  split at hget
  · exact hread hget
  · exact hget ▸ hbefore

/-- A record can be read exactly if every field can. -/
theorem exists_ofJson_iff (hnames : (Fields.keys json.fields).Nodup) :
    (∃ record, ofJson json = .ok record) ↔
      json.HasRecordForm ∧ ∀ field, ∃ content, json.content field = .ok content := by
  constructor
  · rintro ⟨record, h⟩
    obtain ⟨hform, hcontent⟩ := (ofJson_eq_ok_iff hnames).mp h
    exact ⟨hform, fun field => ⟨_, hcontent field⟩⟩
  · rintro ⟨hform, hcontent⟩
    choose contents hcontents using hcontent
    refine ⟨ofContents contents, (ofJson_eq_ok_iff hnames).mpr ⟨hform, fun field => ?_⟩⟩
    rw [get_ofContents]
    exact hcontents field

end Record

end JsonFilter
