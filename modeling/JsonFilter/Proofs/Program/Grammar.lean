import JsonFilter.Proofs.Program.Decoding
import JsonFilter.Proofs.Program.Shapes

/-!
# The grammar of programs

Which documents are programs: the shape of a record is asked for whatever its sort, the sort decides which fields
must be there, and only the programs in the fields of the sort are looked at.  Decoding accepts just the
documents of the grammar, and for any other document it reports the first fault that it comes upon.

* `Json.IsProgram`, `Json.IsRecord`: the grammar;
* `Json.Fails`, `Json.RecordFails`: the fault that a document outside the grammar is refused for;
* `Program.Checks`: what a check passes on and what it reports, closed under sequences and lists of checks;
* `Program.discard_opsOfRecord`: what is asked of a record, and in which order;
* `Program.ofJson_grammar`: decoding follows the grammar.
-/

namespace JsonFilter

/-- What is wrong with a document that is no program, apart from the words for a fault of shape. -/
inductive GrammarFault where
  | malformed (found : Kind)
  | shape
  | unknownOpcode (tag : String)
  | missingField (code : Opcode) (field : RecordField)

/-- What a failure to decode tells of a document.  A text that is no document has no shape. -/
def DecodeError.fault : DecodeError → GrammarFault
  | unknownOpcode tag => .unknownOpcode tag
  | missingField code field => .missingField code field
  | malformed found => .malformed found
  | shape _ | notJson => .shape

/-- The fields that operations of a sort need, in the order in which they are asked for. -/
def Opcode.required : Opcode → List RecordField
  | pick => [.key]
  | index => [.index]
  | pipe => [.source, .target]
  | _ => []

namespace Json

/-! ## The grammar -/

/-- A field is there and does not hold null. -/
def provides (json : Json) (field : RecordField) : Bool :=
  match json.field? field with
  | none | some null => false
  | some _ => true

/-- The items of an array. -/
def items : Json → List Json
  | array items => items
  | _ => []

/-- The program, still a document, of an entry. -/
def entryProgram? : Json → Option Json
  | object members => Fields.get? "value" members
  | array [_, program] => some program
  | _ => none

/-- The documents that stand in a record of the given sort in the place of programs. -/
def programs (json : Json) : Opcode → List Json
  | .createArray => (json.field? .values).elim [] items
  | .createObject => ((json.field? .entries).elim [] items).filterMap entryProgram?
  | .pipe => (json.field? .source).toList ++ (json.field? .target).toList
  | _ => []

mutual

/-- A document is a program: a list of records, or one record that is an object. -/
inductive IsProgram : Json → Prop
  | list {records : List Json} (h : ∀ record ∈ records, IsRecord record) : IsProgram (array records)
  | single {members : List (String × Json)} (h : IsRecord (object members)) :
      IsProgram (object members)

/-- A document is the record of an operation: it has the shape of a record, its sort is known, the fields that
the sort needs are there, and what stands in the place of programs are programs. -/
inductive IsRecord : Json → Prop
  | intro {json : Json} {code : Opcode} (shaped : json.IsShaped)
      (tag : json.field? .op = some (string code.name))
      (provided : ∀ field ∈ code.required, json.provides field)
      (programs : ∀ part ∈ json.programs code, IsProgram part) : IsRecord json

end

mutual

/-- A document is no program, for the given reason: it is neither a list nor an object, or the first of its
records that is none is no record for this reason. -/
inductive Fails : Json → GrammarFault → Prop
  | scalar {json : Json} (harray : ∀ items, json ≠ array items)
      (hobject : ∀ members, json ≠ object members) : Fails json (.malformed json.kind)
  | list {before after : List Json} {record : Json} {fault : GrammarFault}
      (hbefore : ∀ passed ∈ before, IsRecord passed) (h : RecordFails record fault) :
      Fails (array (before ++ record :: after)) fault
  | single {members : List (String × Json)} {fault : GrammarFault}
      (h : RecordFails (object members) fault) : Fails (object members) fault

/-- A document is no record of an operation, for the given reason.  Faults of shape come first, then an unknown
sort, then a field that is missing, and the first of the programs inside that is none comes last. -/
inductive RecordFails : Json → GrammarFault → Prop
  | shape {json : Json} (h : ¬ json.IsShaped) : RecordFails json .shape
  | unknownOpcode {json : Json} {tag : String} (shaped : json.IsShaped)
      (htag : json.field? .op = some (string tag)) (h : ∀ code : Opcode, code.name ≠ tag) :
      RecordFails json (.unknownOpcode tag)
  | missingField {json : Json} {code : Opcode} {before after : List RecordField} {field : RecordField}
      (shaped : json.IsShaped) (tag : json.field? .op = some (string code.name))
      (hrequired : code.required = before ++ field :: after)
      (hbefore : ∀ passed ∈ before, json.provides passed) (h : ¬ json.provides field) :
      RecordFails json (.missingField code field)
  | part {json : Json} {code : Opcode} {before after : List Json} {part : Json} {fault : GrammarFault}
      (shaped : json.IsShaped) (tag : json.field? .op = some (string code.name))
      (provided : ∀ field ∈ code.required, json.provides field)
      (hprograms : json.programs code = before ++ part :: after)
      (hbefore : ∀ passed ∈ before, IsProgram passed) (h : Fails part fault) : RecordFails json fault

end

end Json

namespace Record

/-! ## What a record provides -/

/-- A field that some operations need is there. -/
def provides (record : Record) : RecordField → Bool
  | .key => record.key?.isSome
  | .index => record.index?.isSome
  | .source => record.source?.isSome
  | .target => record.target?.isSome
  | _ => true

/-- The documents that stand in a record in the place of programs, for the given sort. -/
def programs (record : Record) : Opcode → List Json
  | .createArray => record.values
  | .createObject => record.entries.map Prod.snd
  | .pipe => record.source?.toList ++ record.target?.toList
  | _ => []

end Record

namespace Json

variable {json : Json}

/-- An optional part is told exactly if it is there and not null. -/
theorem isSome_eq_provides {α : Type} {read : Json → Except ShapeFault α} {field : RecordField}
    {content : Option α} (h : (json.field? field).elim (.ok none) (orNull read) = .ok content) :
    content.isSome = json.provides field := by
  unfold provides
  cases hpart : json.field? field with
  | none =>
    rw [hpart] at h
    obtain rfl := Except.ok.inj h
    rfl
  | some part =>
    rw [hpart] at h
    cases part with
    | null =>
      obtain rfl := Except.ok.inj h
      rfl
    | _ =>
      obtain ⟨result, -, rfl⟩ := Traverse.map_eq_ok_iff.mp h
      rfl

/-- A document that is provided is told as it is. -/
theorem eq_field?_of_provides {field : RecordField} {content : Option Json}
    (h : (json.field? field).elim (.ok none) (orNull .ok) = .ok content) (hprovided : json.provides field) :
    content = json.field? field := by
  unfold provides at hprovided
  cases hpart : json.field? field with
  | none =>
    rw [hpart] at hprovided
    cases hprovided
  | some part =>
    rw [hpart] at h hprovided
    cases part with
    | null => cases hprovided
    | _ => exact (Except.ok.inj h).symm

theorem IsEntry.entryProgram?_eq {key : String} {program : Json} (h : json.IsEntry key program) :
    json.entryProgram? = some program := by
  cases h with
  | named _ hprogram => exact hprogram
  | positional => rfl

/-- What stands in a record in the place of programs has a property that the items and members of its document
have and hand on. -/
theorem ChildrenHave.of_mem_programs {P : Json → Prop}
    (hP : ∀ {json : Json}, P json → json.ChildrenHave P) (h : json.ChildrenHave P) {code : Opcode}
    {part : Json} (hpart : part ∈ json.programs code) : P part := by
  have hitems : ∀ {field : RecordField}, ∀ item ∈ (json.field? field).elim [] items, P item := by
    intro field item hitem
    cases hlist : json.field? field with
    | none =>
      rw [hlist] at hitem
      cases hitem
    | some list =>
      rw [hlist] at hitem
      cases list with
      | array items => exact hP (h.of_field? hlist) item hitem
      | _ => cases hitem
  cases code with
  | createArray => exact hitems part hpart
  | createObject =>
    obtain ⟨item, hitem, hprogram⟩ := List.mem_filterMap.mp hpart
    have hentry := hP (hitems item hitem)
    unfold entryProgram? at hprogram
    split at hprogram
    · exact hentry _ (Fields.mem_of_get? hprogram)
    · obtain rfl := Option.some.inj hprogram
      exact hentry _ (List.mem_cons_of_mem _ List.mem_cons_self)
    · cases hprogram
  | pipe =>
    rcases List.mem_append.mp hpart with hpart | hpart
    · exact h.of_field? (Option.mem_toList.mp hpart)
    · exact h.of_field? (Option.mem_toList.mp hpart)
  | _ => cases hpart

theorem filterMap_entryProgram? {items : List Json} {entries : List (String × Json)}
    (hnames : ∀ item ∈ items, item.DistinctNames) (h : items.mapM asEntry = .ok entries) :
    items.filterMap entryProgram? = entries.map Prod.snd := by
  have hentries := Traverse.mapM_eq_ok_iff.mp h
  clear h
  induction hentries with
  | nil => rfl
  | cons hentry _ ih =>
    obtain ⟨hfirst, hrest⟩ := List.forall_mem_cons.mp hnames
    rw [List.filterMap_cons, ((asEntry_eq_ok_iff hfirst).mp hentry).entryProgram?_eq, ih hrest,
      List.map_cons]

end Json

namespace Record

variable {json : Json} {record : Record} {code : Opcode}

/-- A record provides the fields that its document provides. -/
theorem provides_eq (hnames : json.DistinctNames) (h : ofJson json = .ok record) {field : RecordField}
    (hfield : field ∈ code.required) : record.provides field = json.provides field := by
  have hcontent := content_eq_of_ofJson hnames h
  have hfields : field = .key ∨ field = .index ∨ field = .source ∨ field = .target := by
    revert hfield
    cases code <;> cases field <;> decide
  rcases hfields with rfl | rfl | rfl | rfl
  · exact Json.isSome_eq_provides (hcontent .key)
  · exact Json.isSome_eq_provides (hcontent .index)
  · exact Json.isSome_eq_provides (hcontent .source)
  · exact Json.isSome_eq_provides (hcontent .target)

/-- The programs of a record are those of its document, once the fields that its sort needs are there. -/
theorem programs_eq (hnames : json.DistinctNames) (h : ofJson json = .ok record)
    (hprovided : ∀ field ∈ code.required, json.provides field) :
    record.programs code = json.programs code := by
  have hcontent := content_eq_of_ofJson hnames h
  cases code with
  | createArray =>
    have hvalues := hcontent .values
    unfold Json.content at hvalues
    unfold programs Json.programs
    cases hpart : json.field? .values with
    | none => exact (Except.ok.inj (hpart ▸ hvalues)).symm
    | some part =>
      rw [hpart] at hvalues
      obtain rfl := Json.asList_eq_ok_iff.mp hvalues
      rfl
  | createObject =>
    have hentries := hcontent .entries
    unfold Json.content at hentries
    unfold programs Json.programs
    cases hpart : json.field? .entries with
    | none =>
      rw [hpart] at hentries
      exact congrArg (List.map Prod.snd) (Except.ok.inj hentries).symm
    | some part =>
      rw [hpart] at hentries
      obtain ⟨items, hitems, hentries⟩ := Traverse.bind_eq_ok_iff.mp hentries
      obtain rfl := Json.asList_eq_ok_iff.mp hitems
      have hpartNames := (hnames.children.of_field? hpart).children
      exact (Json.filterMap_entryProgram? hpartNames hentries).symm
  | pipe =>
    have hsource := Json.eq_field?_of_provides (hcontent .source) (hprovided .source (by decide))
    have htarget := Json.eq_field?_of_provides (hcontent .target) (hprovided .target (by decide))
    exact congrArg₂ (fun source target => source.toList ++ target.toList) hsource htarget
  | _ => rfl

end Record

namespace Program

/-! ## Checks -/

/-- A check passes exactly if something holds, and where it fails it reports just the given faults. -/
structure Checks (check : Except DecodeError PUnit) (holds : Prop) (reports : GrammarFault → Prop) :
    Prop where
  passes : check = .ok ⟨⟩ ↔ holds
  fails : ∀ fault, (∃ e, check = .error e ∧ e.fault = fault) ↔ reports fault

namespace Checks

variable {check : Except DecodeError PUnit} {holds holds' : Prop} {reports reports' : GrammarFault → Prop}

theorem congr (h : Checks check holds reports) (hholds : holds ↔ holds')
    (hreports : ∀ fault, reports fault ↔ reports' fault) : Checks check holds' reports' :=
  ⟨h.passes.trans hholds, fun fault => (h.fails fault).trans (hreports fault)⟩

theorem error (e : DecodeError) : Checks (.error e) False fun fault => e.fault = fault where
  passes := ⟨nofun, nofun⟩
  fails fault := by
    constructor
    · rintro ⟨e', he, rfl⟩
      rw [Except.error.inj he]
    · exact fun h => ⟨e, rfl, h⟩

/-- Of two checks one after another, the second is made only if the first one passes. -/
theorem andThen {next : Except DecodeError PUnit} (h : Checks check holds reports)
    (h' : Checks next holds' reports') :
    Checks (check >>= fun _ => next) (holds ∧ holds') fun fault =>
      reports fault ∨ holds ∧ reports' fault where
  passes := by
    rw [← h.passes, ← h'.passes, Traverse.bind_eq_ok_iff]
    exact ⟨fun ⟨_, hcheck, hnext⟩ => ⟨hcheck, hnext⟩, fun ⟨hcheck, hnext⟩ => ⟨_, hcheck, hnext⟩⟩
  fails fault := by
    rw [← h.fails, ← h'.fails, ← h.passes]
    cases check with
    | error e => simp [Traverse.error_bind]
    | ok passed => simp [Traverse.ok_bind]

/-- A list of checks reports what the first of them reports that does not pass. -/
theorem forM {α : Type} {items : List α} {check : α → Except DecodeError PUnit} {holds : α → Prop}
    {reports : α → GrammarFault → Prop}
    (h : ∀ item ∈ items, Checks (check item) (holds item) (reports item)) :
    Checks (forM items check) (∀ item ∈ items, holds item) fun fault =>
      ∃ before item after, items = before ++ item :: after ∧ (∀ passed ∈ before, holds passed) ∧
        reports item fault where
  passes := Traverse.forM_eq_ok_iff.trans (forall₂_congr fun item hitem => (h item hitem).passes)
  fails fault := by
    constructor
    · rintro ⟨e, he, rfl⟩
      obtain ⟨before, item, after, rfl, hbefore, hitem⟩ := Traverse.forM_eq_error_iff.mp he
      refine ⟨before, item, after, rfl, fun passed hpassed => ?_, ?_⟩
      · exact (h passed (List.mem_append_left _ hpassed)).passes.mp (hbefore passed hpassed)
      · exact ((h item (by simp)).fails _).mp ⟨e, hitem, rfl⟩
    · rintro ⟨before, item, after, rfl, hbefore, hitem⟩
      obtain ⟨e, he, rfl⟩ := ((h item (by simp)).fails fault).mpr hitem
      have hbefore' : ∀ passed ∈ before, check passed = .ok ⟨⟩ := fun passed hpassed =>
        (h passed (List.mem_append_left _ hpassed)).passes.mpr (hbefore passed hpassed)
      exact ⟨e, Traverse.forM_eq_error_iff.mpr ⟨before, item, after, rfl, hbefore', he⟩, rfl⟩

end Checks

/-! ## Decoding a record -/

/-- Asks for the fields that the operations of a sort need. -/
def demand (provides : RecordField → Bool) (code : Opcode) : Except DecodeError PUnit :=
  forM code.required fun field => bif provides field then .ok ⟨⟩ else .error (.missingField code field)

/-- The first of the needed fields that is not there is reported. -/
theorem checks_demand (provides : RecordField → Bool) (code : Opcode) :
    Checks (demand provides code) (∀ field ∈ code.required, provides field) fun fault =>
      ∃ before field after, code.required = before ++ field :: after ∧
        (∀ passed ∈ before, provides passed) ∧ ¬ provides field ∧ .missingField code field = fault := by
  refine Checks.forM fun field _ => ?_
  cases provides field with
  | false => exact (Checks.error _).congr (by simp) (by simp [DecodeError.fault])
  | true => exact ⟨by simp, by simp⟩

theorem demand_congr {provides provides' : RecordField → Bool} {code : Opcode}
    (h : ∀ field, field ∈ code.required → provides field = provides' field) :
    demand provides code = demand provides' code := by
  unfold demand
  revert h
  cases code <;> simp +contextual [Opcode.required]

/-- The operations of a record are decoded once the fields that they need are known to be there, and then the
programs inside them one after another. -/
theorem discard_opsOfRecord (decode : Decoder) (record : Record) (code : Opcode) :
    discard (opsOfRecord decode record code) = demand record.provides code >>= fun _ =>
      forM (record.programs code) fun part => discard (decode part) := by
  cases code with
  | pick =>
    simp only [opsOfRecord, demand, Opcode.required, Record.provides, Record.programs]
    cases record.key? <;> rfl
  | index =>
    simp only [opsOfRecord, demand, Opcode.required, Record.provides, Record.programs]
    cases record.index? <;> rfl
  | createArray =>
    exact (Traverse.discard_map _ (record.values.mapM decode)).trans (Traverse.discard_mapM decode _)
  | createObject =>
    show discard (opsOfRecord decode record .createObject) =
      forM (record.entries.map Prod.snd) fun part => discard (decode part)
    rw [List.forM_map]
    refine (Traverse.discard_map _ _).trans ((Traverse.discard_mapM _ _).trans ?_)
    exact congrArg (forM record.entries) (funext fun entry => Traverse.discard_map _ (decode entry.2))
  | pipe =>
    simp only [opsOfRecord, demand, Opcode.required, Record.provides, Record.programs]
    cases record.source? with
    | none => rfl
    | some source =>
      cases record.target? with
      | none => rfl
      | some target =>
        show discard (decode source >>= fun first => decode target >>= fun second => _) =
          discard (decode source) >>= fun _ => discard (decode target) >>= fun _ => .ok ⟨⟩
        cases decode source with
        | error e => rfl
        | ok first => cases decode target <;> rfl
  | _ => rfl

variable {decode : Decoder} {json : Json}

/-- The decoding of a record: a document that does not have the shape of a record is refused whatever its sort,
then a sort that is not known is refused, and otherwise the sort says what is asked for. -/
theorem decodeRecord_cases (decode : Decoder) (hnames : json.DistinctNames) :
    (¬ json.IsShaped ∧ ∃ fault, decodeRecord decode json = .error (.shape fault)) ∨
      (json.IsShaped ∧ ∃ tag, json.field? .op = some (.string tag) ∧
        (∀ code : Opcode, code.name ≠ tag) ∧ decodeRecord decode json = .error (.unknownOpcode tag)) ∨
      (json.IsShaped ∧ ∃ code : Opcode, json.field? .op = some (.string code.name) ∧
        discard (decodeRecord decode json) = demand json.provides code >>= fun _ =>
          forM (json.programs code) fun part => discard (decode part)) := by
  have hshaped := Record.exists_tagged_iff_isShaped hnames
  cases hrecord : Record.ofJson json with
  | error fault =>
    refine .inl ⟨fun h => ?_, fault, by rw [decodeRecord, hrecord]; rfl⟩
    obtain ⟨record, h, -⟩ := hshaped.mpr h
    cases hrecord.symm.trans h
  | ok record =>
    cases htag : record.tag? with
    | none =>
      have hfault : decodeRecord decode json = .error (.shape (.missingField RecordField.op.name)) := by
        rw [decodeRecord, hrecord, Traverse.mapError_ok, Traverse.ok_bind, Record.tag, htag]
        rfl
      refine .inl ⟨fun h => ?_, _, hfault⟩
      obtain ⟨other, h, hsome⟩ := hshaped.mpr h
      obtain rfl := Except.ok.inj (hrecord.symm.trans h)
      rw [htag] at hsome
      cases hsome
    | some tag =>
      have hshaped : json.IsShaped := hshaped.mp ⟨record, hrecord, by rw [htag]; rfl⟩
      have hop := (Record.tag?_eq_some_iff hnames hrecord).mp htag
      cases hcode : Opcode.ofName? tag with
      | none =>
        refine .inr (.inl ⟨hshaped, tag, hop, ?_, decodeRecord_eq_unknownOpcode hrecord htag hcode⟩)
        rintro code rfl
        rw [Opcode.ofName?_name] at hcode
        cases hcode
      | some code =>
        obtain rfl : code.name = tag := by simpa using List.find?_some hcode
        refine .inr (.inr ⟨hshaped, code, hop, ?_⟩)
        rw [decodeRecord_eq_opsOfRecord hrecord htag]
        rw [discard_opsOfRecord, demand_congr fun field => Record.provides_eq hnames hrecord]
        cases hdemand : demand json.provides code with
        | error e => rfl
        | ok provided =>
          rw [Record.programs_eq hnames hrecord ((checks_demand _ _).passes.mp hdemand)]

/-! ## Decoding follows the grammar -/

/-- A decoder accepts a document exactly if it is a program, and refuses it for its fault otherwise. -/
def FollowsGrammar (decode : Decoder) (json : Json) : Prop :=
  Checks (discard (decode json)) json.IsProgram json.Fails

/-- A decoder accepts a document as a record exactly if it is one, and refuses it for its fault otherwise. -/
def RecordFollowsGrammar (decode : Decoder) (json : Json) : Prop :=
  Checks (discard (decodeRecord decode json)) json.IsRecord json.RecordFails

theorem eq_of_field?_op {code code' : Opcode} (h : json.field? .op = some (.string code.name))
    (h' : json.field? .op = some (.string code'.name)) : code = code' := by
  have hname : code.name = code'.name := Json.string.inj (Option.some.inj (h.symm.trans h'))
  rw [← Option.some_inj, ← Opcode.ofName?_name, hname, Opcode.ofName?_name]

theorem isRecord_iff_of_tag (shaped : json.IsShaped) {code : Opcode}
    (tag : json.field? .op = some (.string code.name)) : json.IsRecord ↔
      (∀ field ∈ code.required, json.provides field) ∧ ∀ part ∈ json.programs code, part.IsProgram := by
  refine ⟨?_, fun ⟨provided, programs⟩ => .intro shaped tag provided programs⟩
  rintro ⟨-, tag', provided, programs⟩
  obtain rfl := eq_of_field?_op tag tag'
  exact ⟨provided, programs⟩

theorem recordFails_iff_of_tag (shaped : json.IsShaped) {code : Opcode}
    (tag : json.field? .op = some (.string code.name)) {fault : GrammarFault} : json.RecordFails fault ↔
      (∃ before field after, code.required = before ++ field :: after ∧
        (∀ passed ∈ before, json.provides passed) ∧ ¬ json.provides field ∧
        .missingField code field = fault) ∨
      (∀ field ∈ code.required, json.provides field) ∧ ∃ before part after,
        json.programs code = before ++ part :: after ∧
        (∀ passed ∈ before, passed.IsProgram) ∧ part.Fails fault := by
  constructor
  · intro h
    cases h with
    | shape hshape => exact absurd shaped hshape
    | unknownOpcode _ htag hunknown =>
      exact absurd (Json.string.inj (Option.some.inj (tag.symm.trans htag))) (hunknown code)
    | missingField _ tag' hrequired hbefore hfield =>
      obtain rfl := eq_of_field?_op tag tag'
      exact .inl ⟨_, _, _, hrequired, hbefore, hfield, rfl⟩
    | part _ tag' provided hprograms hbefore hpart =>
      obtain rfl := eq_of_field?_op tag tag'
      exact .inr ⟨provided, _, _, _, hprograms, hbefore, hpart⟩
  · rintro (⟨before, field, after, hrequired, hbefore, hfield, rfl⟩ |
      ⟨provided, before, part, after, hprograms, hbefore, hpart⟩)
    · exact .missingField shaped tag hrequired hbefore hfield
    · exact .part shaped tag provided hprograms hbefore hpart

/-- If the programs inside a record are decoded by the grammar, then so is the record. -/
theorem recordFollowsGrammar (hnames : json.DistinctNames)
    (hdecode : ∀ part : Json, part.DistinctNames → part.nesting < json.nesting → FollowsGrammar decode part) :
    RecordFollowsGrammar decode json := by
  unfold RecordFollowsGrammar
  rcases decodeRecord_cases decode hnames with
    ⟨hshape, shapeFault, hfault⟩ | ⟨shaped, tag, htag, hunknown, hfault⟩ | ⟨shaped, code, tag, hdecoded⟩
  · rw [Traverse.discard_eq_error_iff.mpr hfault]
    refine (Checks.error _).congr ⟨nofun, fun ⟨shaped, _, _, _⟩ => absurd shaped hshape⟩ fun fault => ?_
    constructor
    · rintro rfl
      exact .shape hshape
    · rintro (_ | shaped | shaped | shaped)
      · rfl
      all_goals exact absurd shaped hshape
  · rw [Traverse.discard_eq_error_iff.mpr hfault]
    have hname : ∀ {code : Opcode}, json.field? .op ≠ some (.string code.name) := fun {code} tag =>
      hunknown code (Json.string.inj (Option.some.inj (tag.symm.trans htag)))
    refine (Checks.error _).congr ⟨nofun, fun ⟨_, tag', _, _⟩ => absurd tag' hname⟩ fun fault => ?_
    constructor
    · rintro rfl
      exact .unknownOpcode shaped htag hunknown
    · rintro (hshape | ⟨-, htag', -⟩ | ⟨-, tag'⟩ | ⟨-, tag'⟩)
      · exact absurd shaped hshape
      · rw [Json.string.inj (Option.some.inj (htag.symm.trans htag'))]
        rfl
      all_goals exact absurd tag' hname
  · have hparts : ∀ part ∈ json.programs code, FollowsGrammar decode part := fun part hpart =>
      hdecode part (hnames.children.of_mem_programs Json.DistinctNames.children hpart)
        (json.childrenHave_nesting_lt.of_mem_programs Json.childrenHave_nesting_lt_of_lt hpart)
    rw [hdecoded]
    exact ((checks_demand _ code).andThen (Checks.forM hparts)).congr
      (isRecord_iff_of_tag shaped tag).symm fun _ => (recordFails_iff_of_tag shaped tag).symm

/-- If the records of a list are decoded by the grammar, then so is the list. -/
theorem followsGrammar_array {records : List Json}
    (h : ∀ record ∈ records, RecordFollowsGrammar ofJson record) : FollowsGrammar ofJson (.array records) := by
  unfold FollowsGrammar
  rw [ofJson_array, Traverse.discard_map, Traverse.discard_mapM]
  have hprogram : (∀ record ∈ records, record.IsRecord) ↔ (Json.array records).IsProgram := by
    refine ⟨.list, ?_⟩
    rintro ⟨h⟩
    exact h
  refine (Checks.forM h).congr hprogram fun fault => ⟨?_, ?_⟩
  · rintro ⟨before, record, after, rfl, hbefore, hrecord⟩
    exact .list hbefore hrecord
  · intro hfails
    cases hfails with
    | scalar harray => exact absurd rfl (harray records)
    | list hbefore hrecord => exact ⟨_, _, _, rfl, hbefore, hrecord⟩

/-- If an object is decoded by the grammar as a record, then so it is as a program. -/
theorem followsGrammar_object {members : List (String × Json)}
    (h : RecordFollowsGrammar ofJson (.object members)) : FollowsGrammar ofJson (.object members) := by
  unfold FollowsGrammar
  rw [ofJson_object]
  have hprogram : (Json.object members).IsRecord ↔ (Json.object members).IsProgram := by
    refine ⟨.single, fun hprogram => ?_⟩
    cases hprogram with
    | single hrecord => exact hrecord
  refine h.congr hprogram fun fault => ⟨.single, fun hfails => ?_⟩
  cases hfails with
  | scalar _ hobject => exact absurd rfl (hobject members)
  | single hrecord => exact hrecord

theorem followsGrammar_scalar {json : Json} (hscalar : json.nesting = 0) : FollowsGrammar ofJson json := by
  unfold FollowsGrammar
  rw [ofJson_of_nesting_eq_zero hscalar]
  cases json with
  | array items => cases hscalar
  | object members => cases hscalar
  | _ =>
    refine (Checks.error _).congr ⟨nofun, nofun⟩ fun fault => ⟨?_, ?_⟩
    · rintro rfl
      exact .scalar nofun nofun
    · rintro ⟨⟩
      rfl

/-- Decoding follows the grammar at every document with distinct names. -/
theorem followsGrammar_ofJson {document : Json} (hnames : document.DistinctNames) :
    FollowsGrammar ofJson document := by
  -- The programs inside a record nest less deep than the record.
  induction hn : document.nesting using Nat.strongRecOn generalizing document with
  | _ n ih =>
    subst hn
    have hrecord : ∀ record : Json, record.nesting ≤ document.nesting → record.DistinctNames →
        RecordFollowsGrammar ofJson record := fun record hle hrecordNames =>
      recordFollowsGrammar hrecordNames fun part hpart hlt =>
        ih part.nesting (Nat.lt_of_lt_of_le hlt hle) hpart rfl
    cases document with
    | array records =>
      exact followsGrammar_array fun record hmem =>
        hrecord record (Nat.le_of_lt (Json.nesting_lt_of_mem_items hmem)) (hnames.children record hmem)
    | object members => exact followsGrammar_object (hrecord _ (Nat.le_refl _) hnames)
    | _ => exact followsGrammar_scalar rfl

theorem exists_ofJson_iff {document : Json} (hnames : document.DistinctNames) :
    (∃ program, ofJson document = .ok program) ↔ document.IsProgram :=
  Traverse.discard_eq_ok_iff.symm.trans (followsGrammar_ofJson hnames).passes

/-- A text holds a program exactly if its document is one, once repeated names have been merged. -/
theorem exists_parse_iff {text : String} : (∃ program, parse text = .ok program) ↔
    ∃ document, Json.read? text = some document ∧ document.mergeKeys.IsProgram := by
  simp only [parse_eq_ok_iff, ← exists_ofJson_iff (Json.distinctNames_mergeKeys _)]
  constructor
  · rintro ⟨program, document, hread, h⟩
    exact ⟨document, hread, program, h⟩
  · rintro ⟨document, hread, program, h⟩
    exact ⟨program, document, hread, h⟩

/-- A document with distinct names is decoded exactly if it belongs to the grammar of programs, and the failure to
decode any other document tells its fault. -/
theorem ofJson_grammar (document : Json) (hnames : document.DistinctNames) :
    ((∃ program, ofJson document = .ok program) ↔ document.IsProgram) ∧
      ∀ fault, (∃ e, ofJson document = .error e ∧ e.fault = fault) ↔ document.Fails fault := by
  refine ⟨exists_ofJson_iff hnames, fun fault => ?_⟩
  rw [← (followsGrammar_ofJson hnames).fails]
  simp only [Traverse.discard_eq_error_iff]

/-- A pipe from a positional record is a program, and without its target it is none. -/
theorem ofJson_grammar_pipe :
    let pick : Json := .array [.string "pick", .string "a", .null, .integer 1, .bool true, .null, .null,
      .null, .array [], .array [], .null, .null]
    let members : List (String × Json) := [("op", .string "pipe"), ("in", .array [pick])]
    let full : Json := .object (members ++ [("out", .array [])])
    (full.DistinctNames ∧ full.IsProgram) ∧
      ((Json.object members).DistinctNames ∧ ¬ (Json.object members).IsProgram ∧
        (Json.object members).Fails (.missingField .pipe .target)) := by
  intro pick members full
  have hpick : pick.DistinctNames := .array (by
    simp [Json.DistinctNames.null, Json.DistinctNames.bool, Json.DistinctNames.integer,
      Json.DistinctNames.string, Json.DistinctNames.array])
  have hin : (Json.array [pick]).DistinctNames := .array (List.forall_mem_singleton.mpr hpick)
  have hout : (Json.array []).DistinctNames := .array nofun
  have hfull : full.DistinctNames := .object (by decide) (by
    simpa [members, Json.DistinctNames.string] using ⟨hin, hout⟩)
  have hmembers : (Json.object members).DistinctNames := .object (by decide) (by
    simpa [members, Json.DistinctNames.string] using hin)
  have hdecoded : ofJson full =
      .ok [.pipe [.pick "a" true, .index 1 true, .explode true] []] := by rfl
  have hrefused : ofJson (.object members) = .error (.missingField .pipe .target) := by rfl
  refine ⟨⟨hfull, (ofJson_grammar full hfull).1.mp ⟨_, hdecoded⟩⟩, hmembers, fun h => ?_,
    ((ofJson_grammar _ hmembers).2 _).mp ⟨_, hrefused, rfl⟩⟩
  obtain ⟨program, h⟩ := (ofJson_grammar _ hmembers).1.mpr h
  cases hrefused.symm.trans h

end Program

end JsonFilter
