import JsonFilter.Proofs.Program.Decoding
import JsonFilter.Proofs.Program.Shapes

/-!
# Other programs in a record

A function of documents can be applied to what stands in a record in the places of its programs: the items of an
array constructor, the programs of entries, and the two sides of a pipe.  The record that is read is then the old
one with other programs, and it is decoded to the same operations if all its programs are.

* `Fields.mapAt`, `Json.mapField`: a function of what stands under a name, and in a field;
* `Json.mapPrograms`, `Record.mapPrograms`: a function of the programs in a record, before and after it is read;
* `Record.ofJson_mapPrograms`: which record is read;
* `Program.opsOfRecord_mapPrograms`: what it is decoded to.
-/

namespace JsonFilter

/-! ## Values under a name -/

namespace Fields

universe u

variable {α : Type u}

/-- Applies a function to what stands under a name. -/
def mapAt (name : String) (f : α → α) (fields : Fields α) : Fields α :=
  fields.map fun field => (field.1, if field.1 = name then f field.2 else field.2)

theorem mapAt_cons (name : String) (f : α → α) (key : String) (value : α) (rest : Fields α) :
    mapAt name f ((key, value) :: rest) = (key, if key = name then f value else value) :: mapAt name f rest := rfl

@[simp] theorem keys_mapAt (name : String) (f : α → α) (fields : Fields α) :
    keys (mapAt name f fields) = keys fields :=
  List.map_map

theorem mapAt_of_not_mem {name : String} {fields : Fields α} (f : α → α) (h : name ∉ keys fields) :
    mapAt name f fields = fields := by
  induction fields with
  | nil => rfl
  | cons field rest ih =>
    obtain ⟨key, value⟩ := field
    rw [keys_cons, List.mem_cons, not_or] at h
    rw [mapAt_cons, if_neg (Ne.symm h.1), ih h.2]

theorem mapAt_congr {name : String} {f g : α → α} {fields : Fields α}
    (h : ∀ value, (name, value) ∈ fields → f value = g value) : mapAt name f fields = mapAt name g fields := by
  refine List.map_congr_left fun field hfield => ?_
  obtain ⟨key, value⟩ := field
  by_cases hname : key = name
  · subst hname
    rw [h value hfield]
  · rw [if_neg hname, if_neg hname]

theorem mem_of_mem_mapAt {name key : String} {f : α → α} {value : α} {fields : Fields α} (hne : key ≠ name)
    (h : (key, value) ∈ mapAt name f fields) : (key, value) ∈ fields := by
  obtain ⟨⟨key', value'⟩, hmem, heq⟩ := List.mem_map.mp h
  obtain ⟨rfl, rfl⟩ := Prod.mk.inj heq
  rwa [if_neg hne]

/-- Only under the name is something else found. -/
theorem get?_mapAt (name key : String) (f : α → α) (fields : Fields α) :
    get? key (mapAt name f fields) = if key = name then (get? key fields).map f else get? key fields := by
  induction fields with
  | nil => simp [mapAt, get?]
  | cons field rest ih =>
    obtain ⟨first, value⟩ := field
    rw [mapAt_cons, get?, get?, ih]
    by_cases h : first = key
    · subst h
      rw [if_pos rfl, if_pos rfl]
      split <;> rfl
    · rw [if_neg h, if_neg h]

/-- A value that stands under a name in a list of values stands at the place of the name. -/
theorem zip_modify {names : List String} (hnames : names.Nodup) (name : String) (f : α → α) (values : List α) :
    names.zip (values.modify (names.idxOf name) f) = mapAt name f (names.zip values) := by
  induction names generalizing values with
  | nil => rfl
  | cons first rest ih =>
    obtain ⟨hfirst, hrest⟩ := List.nodup_cons.mp hnames
    cases values with
    | nil => rw [List.modify_nil]; rfl
    | cons value others =>
      by_cases h : first = name
      · subst h
        have hothers : first ∉ keys (rest.zip others) := by
          intro hmem
          rw [keys_zip] at hmem
          exact hfirst (List.mem_of_mem_take hmem)
        rw [List.idxOf_cons_self, List.modify_zero_cons, List.zip_cons_cons, List.zip_cons_cons, mapAt_cons,
          if_pos rfl, mapAt_of_not_mem f hothers]
      · rw [List.idxOf_cons_ne _ h, List.modify_succ_cons, List.zip_cons_cons, List.zip_cons_cons, mapAt_cons,
          if_neg h, ih hrest]

end Fields

/-- The place of a field in positional records. -/
def RecordField.position (field : RecordField) : Nat :=
  all.idxOf field

theorem RecordField.idxOf_name (field : RecordField) : (all.map name).idxOf field.name = field.position := by
  cases field <;> decide

namespace Json

/-! ## What stands in a field -/

/-- Applies a function to what stands in a field of a record. -/
def mapField (field : RecordField) (f : Json → Json) : Json → Json
  | object members => object (Fields.mapAt field.name f members)
  | array items => array (items.modify field.position f)
  | other => other

variable {json : Json} {field : RecordField} {f g : Json → Json}

theorem fields_mapField (json : Json) (field : RecordField) (f : Json → Json) :
    (json.mapField field f).fields = Fields.mapAt field.name f json.fields := by
  cases json with
  | object members => rfl
  | array items =>
    have hnames : (RecordField.all.map RecordField.name).Nodup := by decide
    show (RecordField.all.map RecordField.name).zip (items.modify field.position f) = _
    rw [← RecordField.idxOf_name]
    exact Fields.zip_modify hnames field.name f items
  | _ => rfl

theorem field?_mapField (json : Json) (field other : RecordField) (f : Json → Json) :
    (json.mapField field f).field? other =
      if other = field then (json.field? other).map f else json.field? other := by
  rw [field?, fields_mapField, Fields.get?_mapAt]
  simp only [RecordField.name_inj]
  rfl

theorem hasRecordForm_mapField : (json.mapField field f).HasRecordForm ↔ json.HasRecordForm := by
  cases json with
  | array items => simp [mapField, HasRecordForm, List.length_modify]
  | _ => exact Iff.rfl

theorem nodup_keys_mapField (hnames : (Fields.keys json.fields).Nodup) :
    (Fields.keys (json.mapField field f).fields).Nodup := by
  rwa [fields_mapField, Fields.keys_mapAt]

/-- What stands in another field is not looked at. -/
theorem mapField_congr (h : ∀ part, (field.name, part) ∈ json.fields → f part = g part) :
    json.mapField field f = json.mapField field g := by
  cases json with
  | object members => exact congrArg object (Fields.mapAt_congr h)
  | array items =>
    have hname : (RecordField.all.map RecordField.name)[field.position]? = some field.name := by
      cases field <;> decide
    refine congrArg array (List.ext_getElem? fun i => ?_)
    rw [List.getElem?_modify, List.getElem?_modify]
    split
    · next hi =>
      subst hi
      cases hitem : items[field.position]? with
      | none => rfl
      | some item =>
        have hmem : (field.name, item) ∈ (array items).fields :=
          List.mem_of_getElem? (List.getElem?_zip_eq_some.mpr ⟨hname, hitem⟩)
        exact congrArg some (h item hmem)
    · rfl
  | _ => rfl

/-! ## Programs in a record -/

/-- Applies a function to the items of an array. -/
def mapItems (f : Json → Json) : Json → Json
  | array items => array (items.map f)
  | other => other

/-- Applies a function to the program of an entry. -/
def mapEntry (f : Json → Json) : Json → Json
  | object members => object (Fields.mapAt "value" f members)
  | array [key, program] => array [key, f program]
  | other => other

/-- Applies a function to what stands in a record of the given sort in the place of programs. -/
def mapPrograms (f : Json → Json) (json : Json) : Opcode → Json
  | .createArray => json.mapField .values (mapItems f)
  | .createObject => json.mapField .entries (mapItems (mapEntry f))
  | .pipe => (json.mapField .source f).mapField .target f
  | _ => json

theorem mapItems_congr (h : json.ChildrenHave fun child => f child = g child) :
    json.mapItems f = json.mapItems g := by
  cases json with
  | array items => exact congrArg array (List.map_congr_left h)
  | _ => rfl

theorem mapEntry_congr (h : json.ChildrenHave fun child => f child = g child) :
    json.mapEntry f = json.mapEntry g := by
  match json, h with
  | object members, h => exact congrArg object (Fields.mapAt_congr fun program hprogram => h _ hprogram)
  | array [key, program], h =>
    show array [key, f program] = array [key, g program]
    rw [h program (by simp)]
  | array [], _ | array [_], _ | array (_ :: _ :: _ :: _), _ => rfl
  | null, _ | bool _, _ | integer _, _ | float _, _ | string _, _ => rfl

/-- The programs in a record nest less deep than the record, and no other document is looked at. -/
theorem mapPrograms_congr (h : ∀ child : Json, child.nesting < json.nesting → f child = g child)
    (code : Opcode) : json.mapPrograms f code = json.mapPrograms g code := by
  have hchildren : ∀ {inner : Json}, inner.nesting < json.nesting →
      inner.ChildrenHave fun child => child.nesting < json.nesting := childrenHave_nesting_lt_of_lt
  have hfirst := json.childrenHave_nesting_lt
  have hparts : ∀ {name : String} {part : Json}, (name, part) ∈ json.fields → part.nesting < json.nesting :=
    json.childrenHave_nesting_lt.of_mem_fields
  cases code with
  | createArray =>
    refine mapField_congr fun part hpart => ?_
    exact mapItems_congr ((hchildren (hparts hpart)).mono h)
  | createObject =>
    refine mapField_congr fun part hpart => mapItems_congr ?_
    refine (hchildren (hparts hpart)).mono fun item hitem => ?_
    exact mapEntry_congr ((hchildren hitem).mono h)
  | pipe =>
    have hsource : json.mapField .source f = json.mapField .source g :=
      mapField_congr fun part hpart => h part (hparts hpart)
    show (json.mapField .source f).mapField .target f = (json.mapField .source g).mapField .target g
    rw [hsource]
    refine mapField_congr fun part hpart => ?_
    rw [fields_mapField] at hpart
    exact h part (hparts (Fields.mem_of_mem_mapAt (by decide) hpart))
  | _ => rfl

/-! ## Reading entries with other programs -/

/-- An entry with another program is read as the entry with the other program. -/
theorem asEntry_mapEntry (hnames : json.DistinctNames) {entry : String × Json} (h : json.asEntry = .ok entry)
    (f : Json → Json) : (json.mapEntry f).asEntry = .ok (entry.1, f entry.2) := by
  have hentry := (asEntry_eq_ok_iff hnames).mp h
  cases hentry with
  | @named members key program hkey hprogram =>
    cases hnames with
    | object hkeys =>
      rw [mapEntry, asEntry_object_eq_ok_iff (by rwa [Fields.keys_mapAt]), Fields.get?_mapAt,
        Fields.get?_mapAt, hkey, hprogram]
      exact ⟨rfl, rfl⟩
  | positional => rfl

theorem orNull_of_ne_null {α : Type} {read : Json → Except ShapeFault α} (h : json ≠ null) :
    orNull read json = (read json).map some := by
  cases json with
  | null => exact absurd rfl h
  | _ => rfl

end Json

namespace Record

variable {json : Json} {record : Record} {f : Json → Json}

/-! ## Reading records with other programs -/

/-- The record of the given sort with other programs. -/
def mapPrograms (f : Json → Json) (record : Record) : Opcode → Record
  | .createArray => { record with values := record.values.map f }
  | .createObject => { record with entries := Fields.mapValues f record.entries }
  | .pipe => { record with source? := record.source?.map f, target? := record.target?.map f }
  | _ => record

/-- If something else in a field is read as another content, then the record is read with this content. -/
theorem ofJson_mapField (field : RecordField) (change : field.Content → field.Content)
    (hnames : (Fields.keys json.fields).Nodup) (hdefault : change (get {} field) = get {} field)
    (hread : ∀ part content, json.field? field = some part → field.read part = .ok content →
      field.read (f part) = .ok (change content)) (h : ofJson json = .ok record) :
    ofJson (json.mapField field f) =
      .ok (ofContents (Function.update record.get field (change (record.get field)))) := by
  obtain ⟨hform, hcontent⟩ := (ofJson_eq_ok_iff hnames).mp h
  refine (ofJson_eq_ok_iff (Json.nodup_keys_mapField hnames)).mpr
    ⟨Json.hasRecordForm_mapField.mpr hform, fun other => ?_⟩
  have hother := hcontent other
  rw [get_ofContents, Json.content, Json.field?_mapField]
  by_cases heq : other = field
  · subst heq
    rw [if_pos rfl, Function.update_self]
    unfold Json.content at hother
    cases hpart : json.field? other with
    | none =>
      rw [hpart] at hother
      have hget : get {} other = record.get other := Except.ok.inj hother
      rw [← hget, hdefault]
      rfl
    | some part =>
      rw [hpart] at hother
      exact hread part _ hpart hother
  · rw [if_neg heq, Function.update_of_ne heq]
    exact hother

/-- A record with other programs is read as the record with the other programs, if null is left alone and nothing
else becomes null. -/
theorem ofJson_mapPrograms (hnames : json.DistinctNames) (hnull : ∀ part, f part = .null ↔ part = .null)
    (h : ofJson json = .ok record) (code : Opcode) :
    ofJson (json.mapPrograms f code) = .ok (record.mapPrograms f code) := by
  have hkeys := hnames.nodup_keys_fields
  have hside : ∀ part content, Json.orNull .ok part = .ok content →
      Json.orNull .ok (f part) = .ok (content.map f) := by
    intro part content hread
    by_cases hpart : part = .null
    · subst hpart
      obtain rfl := Except.ok.inj hread
      rw [(hnull .null).mpr rfl]
      rfl
    · rw [Json.orNull_of_ne_null hpart] at hread
      obtain rfl := Except.ok.inj hread
      exact Json.orNull_of_ne_null (mt (hnull part).mp hpart)
  cases code with
  | createArray =>
    refine ofJson_mapField .values (List.map f) hkeys rfl ?_ h
    intro part content _ hread
    obtain rfl := Json.asList_eq_ok_iff.mp hread
    rfl
  | createObject =>
    refine ofJson_mapField .entries (Fields.mapValues f) hkeys rfl ?_ h
    intro part content hpart hread
    obtain ⟨items, hitems, hread⟩ := Traverse.bind_eq_ok_iff.mp hread
    obtain rfl := Json.asList_eq_ok_iff.mp hitems
    have hitemNames := (hnames.children.of_field? hpart).children
    exact Traverse.mapM_map_eq_ok
      (fun item hitem entry hentry => Json.asEntry_mapEntry (hitemNames item hitem) hentry f) hread
  | pipe =>
    have hsource := ofJson_mapField .source (Option.map f) hkeys rfl
      (fun part content _ hread => hside part content hread) h
    exact ofJson_mapField .target (Option.map f) (Json.nodup_keys_mapField hkeys) rfl
      (fun part content _ hread => hside part content hread) hsource
  | _ => exact h

end Record

namespace Program

variable {decode : Decoder} {record : Record} {f : Json → Json}

/-- A record with other programs is decoded to the same operations, if its programs are decoded to the same
programs. -/
theorem opsOfRecord_mapPrograms
    (hdecode : ∀ part, record.HoldsProgram part → ∀ program, decode part = .ok program →
      decode (f part) = .ok program) {code : Opcode} {ops : List Op}
    (h : opsOfRecord decode record code = .ok ops) :
    opsOfRecord decode (record.mapPrograms f code) code = .ok ops := by
  cases code with
  | createArray =>
    obtain ⟨elements, helements, h⟩ := Traverse.bind_eq_ok_iff.mp h
    refine Traverse.bind_eq_ok_iff.mpr ⟨elements, ?_, h⟩
    rw [← List.map_id elements]
    exact Traverse.mapM_map_eq_ok
      (fun part hpart program hprogram => hdecode part (.element hpart) program hprogram) helements
  | createObject =>
    obtain ⟨entries, hentries, h⟩ := Traverse.bind_eq_ok_iff.mp h
    refine Traverse.bind_eq_ok_iff.mpr ⟨entries, ?_, h⟩
    rw [← List.map_id entries]
    refine Traverse.mapM_map_eq_ok (fun entry hentry result hresult => ?_) hentries
    obtain ⟨program, hprogram, hresult⟩ := Traverse.bind_eq_ok_iff.mp hresult
    refine Traverse.bind_eq_ok_iff.mpr ⟨program, ?_, hresult⟩
    exact hdecode entry.2 (.entry hentry) program hprogram
  | pipe =>
    obtain ⟨sourceJson, hsourceJson, h⟩ := Traverse.bind_eq_ok_iff.mp h
    obtain ⟨targetJson, htargetJson, h⟩ := Traverse.bind_eq_ok_iff.mp h
    obtain ⟨source, hsource, h⟩ := Traverse.bind_eq_ok_iff.mp h
    obtain ⟨target, htarget, h⟩ := Traverse.bind_eq_ok_iff.mp h
    have hsome := required_eq_ok_iff.mp hsourceJson
    have hsome' := required_eq_ok_iff.mp htargetJson
    simp only [opsOfRecord, Record.mapPrograms, hsome, hsome', Option.map_some, required, Traverse.ok_bind]
    rw [hdecode _ (.source hsome) _ hsource, hdecode _ (.target hsome') _ htarget]
    exact h
  | _ => exact h

end Program

end JsonFilter
