import JsonFilter.Proofs.Json.Induction
import JsonFilter.Proofs.Program.Records

/-!
# The shapes of records

What may stand in each field of a record, said without a reader.  These shapes are asked for in every record,
whatever its sort.

* `Json.IsEntry`: the entries of object constructors;
* `RecordField.Admits`: what may stand in a field;
* `Json.IsShaped`: the shape of a record;
* `RecordField.exists_read_iff`, `Record.exists_tagged_iff_isShaped`: the readers accept just these shapes.
-/

namespace JsonFilter

/-! ## Shapes -/

/-- An integer of 64 bits with sign. -/
def InInt64 (n : Int) : Prop :=
  -Nat.pow 2 63 ≤ n ∧ n < Nat.pow 2 63

namespace Json

/-- A document is a string. -/
def IsText (json : Json) : Prop :=
  ∃ text, json = string text

/-- A document is a boolean. -/
def IsBoolean (json : Json) : Prop :=
  ∃ b, json = bool b

/-- A document is an integer of 64 bits with sign. -/
def IsInt64 (json : Json) : Prop :=
  ∃ n, json = integer n ∧ InInt64 n

/-- A document is an entry with the given name and program: an object with both, or an array of the two. -/
inductive IsEntry : Json → String → Json → Prop
  | named {members : List (String × Json)} {key : String} {program : Json}
      (hkey : Fields.get? "key" members = some (string key))
      (hprogram : Fields.get? "value" members = some program) : IsEntry (object members) key program
  | positional (key : String) (program : Json) : IsEntry (array [string key, program]) key program

end Json

/-- A document may stand in a field of a record. -/
def RecordField.Admits : RecordField → Json → Prop
  | op, json => json.IsText
  | key, json => json = .null ∨ json.IsText
  | strict, json => json = .null ∨ json.IsBoolean
  | index, json | start, json | stop, json => json = .null ∨ json.IsInt64
  | explode, json => json.IsBoolean
  | value, _ | source, _ | target, _ => True
  | values, json => ∃ items, json = .array items
  | entries, json =>
    ∃ items, json = .array items ∧ ∀ item ∈ items, ∃ key program, item.IsEntry key program

/-- A document has the shape of a record: it tells the sort of an operation, and every field that is there
holds what may stand in it. -/
structure Json.IsShaped (json : Json) : Prop where
  form : json.HasRecordForm
  tagged : ∃ tag, json.field? .op = some (.string tag)
  admits : ∀ field part, json.field? field = some part → field.Admits part

namespace Json

/-! ## Reading scalars -/

theorem asText_eq_ok_iff {json : Json} {text : String} : json.asText = .ok text ↔ json = string text := by
  cases json <;> simp [asText]

theorem asBool_eq_ok_iff {json : Json} {b : Bool} : json.asBool = .ok b ↔ json = bool b := by
  cases json <;> simp [asBool]

theorem asInt64_eq_ok_iff {json : Json} {n : Int} :
    json.asInt64 = .ok n ↔ json = integer n ∧ InInt64 n := by
  cases json with
  | integer m =>
    by_cases hm : InInt64 m
    · have hread : (integer m).asInt64 = .ok m := if_pos hm
      rw [hread, Except.ok.injEq, integer.injEq]
      exact ⟨fun h => ⟨h, h ▸ hm⟩, And.left⟩
    · have hread : (integer m).asInt64 = .error (.invalidValue m .int64) := if_neg hm
      rw [hread, integer.injEq]
      exact ⟨nofun, fun ⟨h, hn⟩ => absurd (h ▸ hn) hm⟩
  | _ => exact ⟨nofun, nofun⟩

theorem exists_asText_iff {json : Json} : (∃ text, json.asText = .ok text) ↔ json.IsText :=
  exists_congr fun _ => asText_eq_ok_iff

theorem exists_asBool_iff {json : Json} : (∃ b, json.asBool = .ok b) ↔ json.IsBoolean :=
  exists_congr fun _ => asBool_eq_ok_iff

theorem exists_asInt64_iff {json : Json} : (∃ n, json.asInt64 = .ok n) ↔ json.IsInt64 :=
  exists_congr fun _ => asInt64_eq_ok_iff

theorem exists_orNull_iff {α : Type} {read : Json → Except ShapeFault α} {json : Json} :
    (∃ content, orNull read json = .ok content) ↔ json = null ∨ ∃ content, read json = .ok content := by
  cases json with
  | null => exact ⟨fun _ => .inl rfl, fun _ => ⟨none, rfl⟩⟩
  | _ =>
    simp only [reduceCtorEq, false_or]
    exact Traverse.exists_map_eq_ok_iff

end Json

/-! ## Reading entries -/

namespace EntryDraft

theorem key?_of_setNamed {draft next : EntryDraft} {member : String × Json}
    (h : draft.setNamed member = .ok next) :
    if member.1 = "key" then some <$> member.2.asText = .ok next.key? else next.key? = draft.key? := by
  unfold setNamed at h
  split at h
  · obtain ⟨text, htext, h⟩ := Traverse.bind_eq_ok_iff.mp h
    obtain rfl := Except.ok.inj h
    rw [if_pos rfl, htext]
    rfl
  · obtain rfl := Except.ok.inj h
    simp
  · next hkey _ =>
    obtain rfl := Except.ok.inj h
    rw [if_neg fun heq => hkey _ (Prod.ext heq rfl)]

theorem value?_of_setNamed {draft next : EntryDraft} {member : String × Json}
    (h : draft.setNamed member = .ok next) :
    if member.1 = "value" then .ok (some member.2) = (.ok next.value? : Except ShapeFault _)
    else next.value? = draft.value? := by
  unfold setNamed at h
  split at h
  · obtain ⟨text, -, h⟩ := Traverse.bind_eq_ok_iff.mp h
    obtain rfl := Except.ok.inj h
    simp
  · obtain rfl := Except.ok.inj h
    simp
  · next _ hvalue =>
    obtain rfl := Except.ok.inj h
    rw [if_neg fun heq => hvalue _ (Prod.ext heq rfl)]

/-- An entry has been read from an object exactly if it tells in both fields what the object holds. -/
theorem foldlM_setNamed_eq_ok_iff {members : List (String × Json)} (hkeys : (Fields.keys members).Nodup)
    {draft : EntryDraft} : members.foldlM setNamed {} = .ok draft ↔
      (Fields.get? "key" members).elim (.ok none) (fun part => some <$> part.asText) = .ok draft.key? ∧
        Fields.get? "value" members = draft.value? := by
  have hread : ∀ {result : EntryDraft}, members.foldlM setNamed {} = .ok result →
      (Fields.get? "key" members).elim (.ok none) (fun part => some <$> part.asText) = .ok result.key? ∧
        Fields.get? "value" members = result.value? := by
    intro result hresult
    have hkey := Fields.elim_get?_of_foldlM key? (fun part => some <$> part.asText) key?_of_setNamed hkeys hresult
    have hvalue := Fields.elim_get?_of_foldlM value? (fun part => .ok (some part)) value?_of_setNamed hkeys hresult
    refine ⟨hkey, ?_⟩
    cases hget : Fields.get? "value" members with
    | none => exact Except.ok.inj (hget ▸ hvalue)
    | some part => exact Except.ok.inj (hget ▸ hvalue)
  refine ⟨hread, fun ⟨hkey, hvalue⟩ => ?_⟩
  obtain ⟨result, hresult⟩ : ∃ result, members.foldlM setNamed {} = .ok result := by
    refine Traverse.exists_foldlM (fun member hmember built => ?_) _
    obtain ⟨name, part⟩ := member
    unfold setNamed
    split
    · next heq =>
      obtain ⟨rfl, rfl⟩ := Prod.mk.inj heq
      rw [Fields.get?_of_mem hkeys hmember] at hkey
      obtain ⟨text, htext, -⟩ := Traverse.map_eq_ok_iff.mp hkey
      exact ⟨_, by rw [htext, Traverse.ok_bind]; rfl⟩
    · exact ⟨_, rfl⟩
    · exact ⟨_, rfl⟩
  obtain ⟨hkey', hvalue'⟩ := hread hresult
  obtain rfl : result = draft := by
    obtain ⟨key?, value?⟩ := draft
    obtain ⟨key?', value?'⟩ := result
    obtain rfl := Except.ok.inj (hkey'.symm.trans hkey)
    obtain rfl := hvalue'.symm.trans hvalue
    rfl
  exact hresult

theorem finish_eq_ok_iff {draft : EntryDraft} {entry : String × Json} :
    draft.finish = .ok entry ↔ draft = ⟨some entry.1, some entry.2⟩ := by
  obtain ⟨key?, value?⟩ := draft
  cases key? <;> cases value? <;> simp [finish, Prod.ext_iff]

end EntryDraft

/-- An entry has been read from an object exactly if its two fields hold the name and the program. -/
theorem Json.asEntry_object_eq_ok_iff {members : List (String × Json)}
    (hkeys : (Fields.keys members).Nodup) {entry : String × Json} :
    (object members).asEntry = .ok entry ↔
      Fields.get? "key" members = some (string entry.1) ∧ Fields.get? "value" members = some entry.2 := by
  have hfold : (object members).asEntry = .ok entry ↔
      members.foldlM EntryDraft.setNamed {} = .ok ⟨some entry.1, some entry.2⟩ := by
    rw [asEntry, Traverse.bind_eq_ok_iff]
    simp only [EntryDraft.finish_eq_ok_iff]
    exact ⟨fun ⟨_, hdraft, heq⟩ => heq ▸ hdraft, fun h => ⟨_, h, rfl⟩⟩
  rw [hfold, EntryDraft.foldlM_setNamed_eq_ok_iff hkeys]
  refine and_congr_left fun _ => ?_
  cases Fields.get? "key" members with
  | none => simp
  | some part =>
    rw [Option.elim_some, Traverse.map_eq_ok_iff, Option.some_inj]
    simp [asText_eq_ok_iff]

/-- An entry has been read exactly if the document is one, with the same name and program. -/
theorem Json.asEntry_eq_ok_iff {json : Json} (hnames : json.DistinctNames) {entry : String × Json} :
    json.asEntry = .ok entry ↔ json.IsEntry entry.1 entry.2 := by
  obtain ⟨key, program⟩ := entry
  cases json with
  | object members =>
    cases hnames with
    | object hkeys =>
      rw [asEntry_object_eq_ok_iff hkeys]
      constructor
      · rintro ⟨hkey, hprogram⟩
        exact .named hkey hprogram
      · rintro ⟨hkey, hprogram⟩
        exact ⟨hkey, hprogram⟩
  | array items =>
    constructor
    · intro h
      match items, h with
      | [], h => cases h
      | [_], h =>
        obtain ⟨_, _, h⟩ := Traverse.bind_eq_ok_iff.mp h
        cases h
      | first :: second :: rest, h =>
        obtain ⟨text, htext, hentry⟩ := Traverse.bind_eq_ok_iff.mp h
        obtain rfl := asText_eq_ok_iff.mp htext
        split at hentry
        · next hrest =>
          obtain rfl := List.isEmpty_iff.mp hrest
          obtain ⟨rfl, rfl⟩ := Prod.mk.inj (Except.ok.inj hentry)
          exact .positional _ _
        · cases hentry
    · rintro ⟨⟩
      rfl
  | _ => exact ⟨by simp [asEntry], nofun⟩


/-! ## Reading fields -/

namespace Json

theorem ChildrenHave.of_mem_fields {P : Json → Prop} {json : Json} (h : json.ChildrenHave P) {name : String}
    {part : Json} (hpart : (name, part) ∈ json.fields) : P part := by
  cases json with
  | object members => exact h _ hpart
  | array items => exact h _ (List.of_mem_zip hpart).2
  | _ => cases hpart

/-- A field of a record holds an item or a member of the record. -/
theorem ChildrenHave.of_field? {P : Json → Prop} {json : Json} (h : json.ChildrenHave P)
    {field : RecordField} {part : Json} (hpart : json.field? field = some part) : P part :=
  h.of_mem_fields (Fields.mem_of_get? hpart)

theorem DistinctNames.nodup_keys_fields {json : Json} (h : json.DistinctNames) :
    (Fields.keys json.fields).Nodup := by
  cases h with
  | object hkeys _ => exact hkeys
  | array _ => exact nodup_keys_fields_array _
  | _ => exact List.nodup_nil

end Json

/-- A field can be read exactly if its document may stand in it. -/
theorem RecordField.exists_read_iff {field : RecordField} {json : Json} (hnames : json.DistinctNames) :
    (∃ content, field.read json = .ok content) ↔ field.Admits json := by
  cases field with
  | op =>
    rw [Admits, ← Json.exists_asText_iff]
    exact Traverse.exists_map_eq_ok_iff
  | key => exact Json.exists_orNull_iff.trans (or_congr_right Json.exists_asText_iff)
  | strict => exact Json.exists_orNull_iff.trans (or_congr_right Json.exists_asBool_iff)
  | index | start | stop => exact Json.exists_orNull_iff.trans (or_congr_right Json.exists_asInt64_iff)
  | explode => exact Json.exists_asBool_iff
  | value | source | target => exact iff_true_intro (Json.exists_orNull_iff.mpr (.inr ⟨json, rfl⟩))
  | values => exact exists_congr fun items => Json.asList_eq_ok_iff
  | entries =>
    constructor
    · rintro ⟨entries, h⟩
      obtain ⟨items, hitems, h⟩ := Traverse.bind_eq_ok_iff.mp h
      obtain rfl := Json.asList_eq_ok_iff.mp hitems
      refine ⟨items, rfl, fun item hitem => ?_⟩
      obtain ⟨entry, -, hentry⟩ := Traverse.exists_mem_of_mapM h hitem
      exact ⟨_, _, (Json.asEntry_eq_ok_iff (hnames.children item hitem)).mp hentry⟩
    · rintro ⟨items, rfl, h⟩
      have hentries : ∃ entries, items.mapM Json.asEntry = .ok entries :=
        Traverse.exists_mapM_iff.mpr fun item hitem => by
          obtain ⟨key, program, hentry⟩ := h item hitem
          exact ⟨(key, program), (Json.asEntry_eq_ok_iff (hnames.children item hitem)).mpr hentry⟩
      exact hentries

/-! ## Reading records -/

namespace Record

variable {json : Json}

theorem content_eq_of_ofJson (hnames : json.DistinctNames) {record : Record}
    (h : ofJson json = .ok record) (field : RecordField) : json.content field = .ok (record.get field) :=
  ((ofJson_eq_ok_iff hnames.nodup_keys_fields).mp h).2 field

/-- The tag of a record is the text in the field of the sort. -/
theorem tag?_eq_some_iff (hnames : json.DistinctNames) {record : Record} (h : ofJson json = .ok record)
    {tag : String} : record.tag? = some tag ↔ json.field? .op = some (.string tag) := by
  have hcontent := content_eq_of_ofJson hnames h .op
  unfold Json.content at hcontent
  cases hpart : json.field? .op with
  | none =>
    rw [hpart] at hcontent
    have : record.tag? = none := (Except.ok.inj hcontent).symm
    simp [this]
  | some part =>
    rw [hpart] at hcontent
    obtain ⟨text, htext, heq⟩ := Traverse.map_eq_ok_iff.mp hcontent
    obtain rfl := Json.asText_eq_ok_iff.mp htext
    have : record.tag? = some text := heq.symm
    simp [this]

/-- A record that tells its sort can be read exactly from documents of the shape of a record. -/
theorem exists_tagged_iff_isShaped (hnames : json.DistinctNames) :
    (∃ record, ofJson json = .ok record ∧ record.tag?.isSome) ↔ json.IsShaped := by
  have hadmits : (∀ field, ∃ content, json.content field = .ok content) ↔
      ∀ field part, json.field? field = some part → field.Admits part := by
    refine forall_congr' fun field => ?_
    unfold Json.content
    cases hpart : json.field? field with
    | none => exact ⟨fun _ => nofun, fun _ => ⟨_, rfl⟩⟩
    | some part =>
      have hread : (∃ content, field.read part = .ok content) ↔ field.Admits part :=
        RecordField.exists_read_iff (hnames.children.of_field? hpart)
      simpa using hread
  constructor
  · rintro ⟨record, h, htag⟩
    obtain ⟨hform, hcontents⟩ := (exists_ofJson_iff hnames.nodup_keys_fields).mp ⟨record, h⟩
    obtain ⟨tag, htag⟩ := Option.isSome_iff_exists.mp htag
    exact ⟨hform, ⟨tag, (tag?_eq_some_iff hnames h).mp htag⟩, hadmits.mp hcontents⟩
  · rintro ⟨hform, ⟨tag, htag⟩, hparts⟩
    obtain ⟨record, h⟩ :=
      (exists_ofJson_iff hnames.nodup_keys_fields).mpr ⟨hform, hadmits.mpr hparts⟩
    exact ⟨record, h, Option.isSome_iff_exists.mpr ⟨tag, (tag?_eq_some_iff hnames h).mpr htag⟩⟩

end Record

end JsonFilter
