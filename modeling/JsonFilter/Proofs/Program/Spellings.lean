import JsonFilter.Proofs.Program.Grammar
import Mathlib.Logic.Relation

/-!
# Other spellings of a record

The record of an operation may be written with its fields in any order, with fields of other names among them,
with or without the fields that say nothing, or as the array of all its fields, and an entry of an object
constructor may be written as a pair.  All these documents tell the same in every field, so decoding cannot tell
them apart, whether it succeeds or fails.

* `Json.Respells`: the ways of writing a record again;
* `Json.Respells.content`: a record that is written again tells the same in every field;
* `Program.decodeRecord_fault_congr`: what a record tells decides how it is decoded;
* `Program.ofJson_respelled`: lists with one record or the other are decoded alike.
-/

namespace JsonFilter

/-! ## Spellings -/

/-- What stands in a field that says nothing: null, or the default of a field that has one. -/
def RecordField.blank : RecordField → Json
  | explode => .bool false
  | values | entries => .array []
  | _ => .null

namespace Json

/-- The array of all fields of a record, with what says nothing for fields that are not there. -/
def positional (members : List (String × Json)) : Json :=
  array (RecordField.all.map fun field => (Fields.get? field.name members).getD field.blank)

/-- An entry is left as it is, or an object with the two fields of an entry is written as the pair of them. -/
inductive EntryRespells : Json → Json → Prop
  | same (json : Json) : EntryRespells json json
  | pair {members : List (String × Json)} {key program : Json} (hnames : (Fields.keys members).Nodup)
      (hkey : Fields.get? "key" members = some key)
      (hprogram : Fields.get? "value" members = some program) :
      EntryRespells (object members) (array [key, program])

/-- A record that is an object with distinct names is written again. -/
inductive Respells : Json → Json → Prop
  /-- The fields are put into another order. -/
  | permuted {members members' : List (String × Json)} (hnames : (Fields.keys members).Nodup)
      (h : members.Perm members') : Respells (object members) (object members')
  /-- A field that no record has is added. -/
  | unknown {members : List (String × Json)} {name : String} {part : Json}
      (hnames : (Fields.keys ((name, part) :: members)).Nodup)
      (hunknown : ∀ field : RecordField, field.name ≠ name) :
      Respells (object members) (object ((name, part) :: members))
  /-- A field that says nothing is added. -/
  | blank {members : List (String × Json)} {field : RecordField} (hfield : field ≠ .op)
      (hnames : (Fields.keys ((field.name, field.blank) :: members)).Nodup) :
      Respells (object members) (object ((field.name, field.blank) :: members))
  /-- Entries are written as pairs. -/
  | entries {members : List (String × Json)} {items items' : List Json}
      (hnames : (Fields.keys ((RecordField.entries.name, array items) :: members)).Nodup)
      (h : List.Forall₂ EntryRespells items items') :
      Respells (object ((RecordField.entries.name, array items) :: members))
        (object ((RecordField.entries.name, array items') :: members))
  /-- The record is written as the array of its fields. -/
  | positional {members : List (String × Json)} (hnames : (Fields.keys members).Nodup)
      (hop : (Fields.get? RecordField.op.name members).isSome) :
      Respells (object members) (positional members)

end Json

namespace RecordField

/-- What says nothing is read as if the field were not there. -/
theorem read_blank {field : RecordField} (h : field ≠ op) :
    field.read field.blank = .ok (Record.get {} field) := by
  cases field with
  | op => exact absurd rfl h
  | _ => rfl

end RecordField

namespace Json

/-! ## Entries -/

/-- An entry that is written as a pair is read as the same entry. -/
theorem EntryRespells.toOption_asEntry {json json' : Json} (h : json.EntryRespells json') :
    json.asEntry.toOption = json'.asEntry.toOption := by
  cases h with
  | same => rfl
  | pair hnames hkey hprogram =>
    rw [Traverse.toOption_eq_toOption_iff]
    rintro ⟨name, program⟩
    rw [asEntry_object_eq_ok_iff hnames, hkey, hprogram, asEntry, Traverse.bind_eq_ok_iff]
    simp [asText_eq_ok_iff, Prod.ext_iff]

/-! ## Fields -/

variable {members : List (String × Json)}

theorem content_object (field : RecordField) : (object members).content field =
    (Fields.get? field.name members).elim (.ok (Record.get {} field)) field.read := rfl

/-- A member under another name does not matter to a field. -/
theorem content_object_cons_of_ne {name : String} {part : Json} {field : RecordField}
    (h : name ≠ field.name) :
    (object ((name, part) :: members)).content field = (object members).content field := by
  rw [content_object, content_object, Fields.get?, if_neg h]

theorem content_object_cons_self {field : RecordField} {part : Json} :
    (object ((field.name, part) :: members)).content field = field.read part := by
  rw [content_object, Fields.get?, if_pos rfl, Option.elim_some]

theorem content_positional (hop : (Fields.get? RecordField.op.name members).isSome) (field : RecordField) :
    (positional members).content field = (object members).content field := by
  have hnames := nodup_keys_fields_array
    (RecordField.all.map fun field => (Fields.get? field.name members).getD field.blank)
  have hpart : (positional members).field? field =
      some ((Fields.get? field.name members).getD field.blank) := by
    refine Fields.get?_of_mem hnames ?_
    rw [fields, List.zip_map']
    exact List.mem_map.mpr ⟨field, RecordField.mem_all field, rfl⟩
  rw [content, hpart, content_object, Option.elim_some]
  cases hget : Fields.get? field.name members with
  | some part => rfl
  | none =>
    refine RecordField.read_blank ?_
    rintro rfl
    rw [hget] at hop
    cases hop

theorem hasRecordForm_positional (members : List (String × Json)) : (positional members).HasRecordForm :=
  List.length_map _

/-- A record and its other spelling are objects with distinct names or arrays of all fields. -/
theorem Respells.form {json json' : Json} (h : json.Respells json') :
    (json.HasRecordForm ∧ (Fields.keys json.fields).Nodup) ∧
      json'.HasRecordForm ∧ (Fields.keys json'.fields).Nodup := by
  cases h with
  | permuted hnames h => exact ⟨⟨trivial, hnames⟩, trivial, (h.map Prod.fst).nodup_iff.mp hnames⟩
  | unknown hnames => exact ⟨⟨trivial, hnames.of_cons⟩, trivial, hnames⟩
  | blank _ hnames => exact ⟨⟨trivial, hnames.of_cons⟩, trivial, hnames⟩
  | entries hnames => exact ⟨⟨trivial, hnames⟩, trivial, hnames⟩
  | positional hnames =>
    exact ⟨⟨trivial, hnames⟩, hasRecordForm_positional _, nodup_keys_fields_array _⟩

/-- A record that is written again tells the same in every field. -/
theorem Respells.content {json json' : Json} (h : json.Respells json') (field : RecordField) :
    (json.content field).toOption = (json'.content field).toOption := by
  cases h with
  | permuted hnames h => rw [content_object, content_object, Fields.get?_perm hnames h]
  | unknown _ hunknown => rw [content_object_cons_of_ne (hunknown field).symm]
  | @blank members other hother hnames =>
    by_cases hfield : other = field
    · subst hfield
      obtain ⟨hnew, -⟩ := List.nodup_cons.mp hnames
      rw [content_object_cons_self, RecordField.read_blank hother, content_object,
        Fields.get?_eq_none_iff.mpr hnew, Option.elim_none]
    · rw [content_object_cons_of_ne (mt RecordField.name_inj.mp hfield)]
  | @entries members items items' _ h =>
    by_cases hfield : RecordField.entries = field
    · subst hfield
      rw [content_object_cons_self, content_object_cons_self]
      show (items.mapM asEntry).toOption = (items'.mapM asEntry).toOption
      rw [Traverse.toOption_mapM, Traverse.toOption_mapM]
      exact Traverse.mapM_eq_of_forall₂ (h.imp fun _ _ => EntryRespells.toOption_asEntry)
    · have hname := mt RecordField.name_inj.mp hfield
      rw [content_object_cons_of_ne hname, content_object_cons_of_ne hname]
  | positional _ hop => rw [content_positional hop]

end Json

/-- What a record tells in its fields decides which record is read. -/
theorem Record.toOption_ofJson_of_respells {json json' : Json} (h : json.Respells json') :
    (ofJson json).toOption = (ofJson json').toOption := by
  obtain ⟨⟨hform, hnames⟩, hform', hnames'⟩ := h.form
  rw [Traverse.toOption_eq_toOption_iff]
  intro record
  rw [ofJson_eq_ok_iff hnames, ofJson_eq_ok_iff hnames']
  refine and_congr (iff_of_true hform hform') (forall_congr' fun field => ?_)
  rw [← Traverse.toOption_eq_some_iff, ← Traverse.toOption_eq_some_iff, h.content field]

namespace Program

/-! ## Decoding -/

/-- Two documents hold the same program, or they are refused for the same fault. -/
def DecodedAlike (document other : Json) : Prop :=
  (∃ program, ofJson document = .ok program ∧ ofJson other = .ok program) ∨
    ∃ e e', ofJson document = .error e ∧ ofJson other = .error e' ∧ e.fault = e'.fault

theorem decodedAlike_iff {document other : Json} : DecodedAlike document other ↔
    (ofJson document).mapError DecodeError.fault = (ofJson other).mapError DecodeError.fault := by
  unfold DecodedAlike
  cases ofJson document with
  | error e =>
    cases ofJson other with
    | error e' =>
      show _ ↔ Except.error e.fault = Except.error e'.fault
      simp
    | ok program =>
      show _ ↔ Except.error e.fault = Except.ok program
      simp
  | ok program =>
    cases ofJson other with
    | error e' =>
      show _ ↔ Except.ok program = Except.error e'.fault
      simp
    | ok program' =>
      show _ ↔ Except.ok program = Except.ok program'
      simp [eq_comm]

/-- A document that is no record is refused for its shape, and so the record that is read decides what is decoded,
up to the words for a fault of shape. -/
theorem decodeRecord_fault_congr {decode : Decoder} {json json' : Json}
    (h : (Record.ofJson json).toOption = (Record.ofJson json').toOption) :
    (decodeRecord decode json).mapError DecodeError.fault =
      (decodeRecord decode json').mapError DecodeError.fault := by
  unfold decodeRecord
  cases hjson : Record.ofJson json with
  | error fault =>
    cases hjson' : Record.ofJson json' with
    | error fault' => rfl
    | ok record =>
      rw [hjson, hjson'] at h
      cases h
  | ok record =>
    have hjson' : Record.ofJson json' = .ok record := by
      rw [← Traverse.toOption_eq_some_iff, ← h, hjson]
      rfl
    rw [hjson']

/-- Records that arise from each other by writing them again are decoded alike. -/
theorem decodeRecord_respelled (decode : Decoder) {json json' : Json}
    (h : Relation.EqvGen Json.Respells json json') :
    (decodeRecord decode json).mapError DecodeError.fault =
      (decodeRecord decode json').mapError DecodeError.fault := by
  induction h with
  | rel _ _ h => exact decodeRecord_fault_congr (Record.toOption_ofJson_of_respells h)
  | refl _ => rfl
  | symm _ _ _ ih => exact ih.symm
  | trans _ _ _ _ _ ih ih' => exact ih.trans ih'

/-- The fault of a list is that of its first record that has one. -/
theorem mapError_ofJson_array (records : List Json) :
    (ofJson (.array records)).mapError DecodeError.fault =
      List.flatten <$> records.mapM fun record => (decodeRecord ofJson record).mapError DecodeError.fault := by
  rw [ofJson_array, Traverse.mapError_map, Traverse.mapM_mapError]

/-- A record may be written with its fields in any order, with or without fields of other names and fields that
say nothing, with its entries as pairs, and as the array of all its fields, one after another and back again.  A
list with one spelling or the other in the same place holds the same program or is refused for the same fault,
and so does the record by itself as long as it stays an object. -/
theorem ofJson_respelled (record record' : Json) (h : Relation.EqvGen Json.Respells record record') :
    (∀ before after, DecodedAlike (.array (before ++ record :: after)) (.array (before ++ record' :: after))) ∧
    ∀ members members', record = .object members → record' = .object members' →
      DecodedAlike record record' := by
  have hdecoded := decodeRecord_respelled ofJson h
  constructor
  · intro before after
    rw [decodedAlike_iff, mapError_ofJson_array, mapError_ofJson_array]
    simp only [List.mapM_append, List.mapM_cons, hdecoded]
  · rintro members members' rfl rfl
    rwa [decodedAlike_iff, ofJson_object, ofJson_object]

/-- The record of an object constructor with a field of another name, a field that says nothing and an entry with
its fields in the other order, and the array of its fields with the entry as a pair. -/
theorem ofJson_respelled_positional : ∃ record record' : Json,
    record = .object [("note", .string "an object"), ("strict", .null), ("op", .string "create_object"),
      ("entries", .array [.object [("value", .array []), ("key", .string "a")]])] ∧
    record' = .array [.string "create_object", .null, .null, .null, .bool false, .null, .null, .null, .array [],
      .array [.array [.string "a", .array []]], .null, .null] ∧
    Relation.EqvGen Json.Respells record record' ∧
    DecodedAlike (.array [record, record]) (.array [record, record']) ∧
    ofJson (.array [record, record']) = .ok [.createObject [("a", [])], .createObject [("a", [])]] := by
  refine ⟨_, _, rfl, rfl, ?_⟩
  have hunknown : ∀ field : RecordField, field.name ≠ "note" := by
    intro field
    cases field <;> decide
  have hentry : Json.EntryRespells (.object [("value", .array []), ("key", .string "a")])
      (.array [.string "a", .array []]) := .pair (by decide) rfl rfl
  have hnote : Json.Respells
      (.object [("strict", .null), ("op", .string "create_object"),
        ("entries", .array [.object [("value", .array []), ("key", .string "a")]])])
      (.object [("note", .string "an object"), ("strict", .null), ("op", .string "create_object"),
        ("entries", .array [.object [("value", .array []), ("key", .string "a")]])]) :=
    .unknown (by decide) hunknown
  have hstrict : Json.Respells
      (.object [("op", .string "create_object"),
        ("entries", .array [.object [("value", .array []), ("key", .string "a")]])])
      (.object [("strict", .null), ("op", .string "create_object"),
        ("entries", .array [.object [("value", .array []), ("key", .string "a")]])]) :=
    @Json.Respells.blank _ .strict (by decide) (by decide)
  have horder : Json.Respells
      (.object [("op", .string "create_object"),
        ("entries", .array [.object [("value", .array []), ("key", .string "a")]])])
      (.object [("entries", .array [.object [("value", .array []), ("key", .string "a")]]),
        ("op", .string "create_object")]) :=
    .permuted (by decide) (.swap _ _ [])
  have hpair : Json.Respells
      (.object [("entries", .array [.object [("value", .array []), ("key", .string "a")]]),
        ("op", .string "create_object")])
      (.object [("entries", .array [.array [.string "a", .array []]]), ("op", .string "create_object")]) :=
    .entries (by decide) (.cons hentry .nil)
  have harray : Json.Respells
      (.object [("entries", .array [.array [.string "a", .array []]]), ("op", .string "create_object")])
      (.array [.string "create_object", .null, .null, .null, .bool false, .null, .null, .null, .array [],
        .array [.array [.string "a", .array []]], .null, .null]) :=
    .positional (by decide) rfl
  have hobject := (Relation.EqvGen.rel _ _ hnote).symm.trans _ _ _ (.symm _ _ (.rel _ _ hstrict))
  have hrespells := hobject.trans _ _ _ (.trans _ _ _ (.rel _ _ horder)
    (.trans _ _ _ (.rel _ _ hpair) (.rel _ _ harray)))
  exact ⟨hrespells, (ofJson_respelled _ _ hrespells).1 [_] [], rfl⟩

end Program

end JsonFilter
