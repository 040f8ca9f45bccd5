import JsonFilter.Program.Parts
import JsonFilter.Proofs.Program.Induction
import JsonFilter.Proofs.Traversal

/-!
# Decoded programs

The operations of a decoded program come from records, and the programs inside them from documents in these
records.  Each level of programs inside programs costs at least one level of brackets, so a decoded program
nests less deep than the document that it comes from.

* `Program.exists_record_of_ofJson`: the record that an operation comes from;
* `Program.of_opsOfRecord`: where the literal and the parts of an operation come from;
* `Program.induction_of_ofJson`: what holds of the operations of decoded programs, record by record;
* `Program.nesting_lt_of_ofJson`: the nesting of a decoded program.
-/

namespace JsonFilter

/-- A document stands in a record in the place of a program. -/
inductive Record.HoldsProgram (record : Record) : Json → Prop
  | element {json : Json} (h : json ∈ record.values) : HoldsProgram record json
  | entry {entry : String × Json} (h : entry ∈ record.entries) : HoldsProgram record entry.2
  | source {json : Json} (h : record.source? = some json) : HoldsProgram record json
  | target {json : Json} (h : record.target? = some json) : HoldsProgram record json

theorem Record.PartsBelow.nesting_lt {record : Record} {n : Nat} (below : record.PartsBelow n)
    {json : Json} (h : record.HoldsProgram json) : json.nesting < n := by
  cases h with
  | element h => exact below.values json h
  | entry h => exact below.entries _ h
  | source h => exact below.source json h
  | target h => exact below.target json h

theorem Record.PartsHave.of_holdsProgram {P : Json → Prop} {record : Record}
    (parts : record.PartsHave P) {json : Json} (h : record.HoldsProgram json) : P json := by
  cases h with
  | element h => exact parts.values json h
  | entry h => exact parts.entries _ h
  | source h => exact parts.source json h
  | target h => exact parts.target json h

/-- The documents of the records of a program: the items of a list, or the document itself. -/
def Json.records : Json → List Json
  | array items => items
  | other => [other]

theorem Json.nesting_le_of_mem_records {record document : Json} (h : record ∈ document.records) :
    record.nesting ≤ document.nesting := by
  cases document with
  | array items => exact Nat.le_of_lt (nesting_lt_of_mem_items h)
  | _ => exact Nat.le_of_eq (congrArg nesting (List.mem_singleton.mp h))

/-- The records of a document have a property that the document has and hands on. -/
theorem Json.of_mem_records {D : Json → Prop} (hD : ∀ {json : Json}, D json → json.ChildrenHave D)
    {document record : Json} (h : D document) (hrecord : record ∈ document.records) : D record := by
  cases document with
  | array items => exact hD h record hrecord
  | _ => rwa [List.mem_singleton.mp hrecord]

namespace Program

/-- A text holds a program exactly if it holds a document that holds one. -/
theorem parse_eq_ok_iff {text : String} {program : Program} :
    parse text = .ok program ↔
      ∃ document, Json.read? text = some document ∧ ofJson document.mergeKeys = .ok program := by
  unfold parse Json.parse?
  cases Json.read? text <;> simp

/-! ## Records -/

theorem required_eq_ok_iff {α : Type} {code : Opcode} {field : RecordField} {content? : Option α}
    {content : α} : required code field content? = .ok content ↔ content? = some content := by
  cases content? <;> simp [required]

/-- Every operation of a decoded program is an operation of one of the records. -/
theorem exists_record_of_ofJson {document : Json} {program : Program}
    (h : ofJson document = .ok program) {op : Op} (hop : op ∈ program) :
    ∃ record ∈ document.records, ∃ ops, decodeRecord ofJson record = .ok ops ∧ op ∈ ops := by
  cases document with
  | array records =>
    rw [ofJson_array] at h
    obtain ⟨lists, hlists, rfl⟩ := Traverse.map_eq_ok_iff.mp h
    obtain ⟨ops, hops, hop⟩ := List.mem_flatten.mp hop
    obtain ⟨record, hrecord, hdecoded⟩ := Traverse.exists_of_mem_mapM hlists hops
    exact ⟨record, hrecord, ops, hdecoded, hop⟩
  | object members =>
    rw [ofJson_object] at h
    exact ⟨_, List.mem_singleton_self _, program, h, hop⟩
  | _ => cases h

/-- A record whose sort is known is decoded as its sort says. -/
theorem decodeRecord_eq_opsOfRecord {decode : Decoder} {document : Json} {record : Record} {code : Opcode}
    (hrecord : Record.ofJson document = .ok record) (htag : record.tag? = some code.name) :
    decodeRecord decode document = opsOfRecord decode record code := by
  unfold decodeRecord
  simp only [hrecord, Record.tag, htag, Traverse.mapError_ok, Traverse.ok_bind, Opcode.ofName?_name]

/-- A record whose sort is not known is refused. -/
theorem decodeRecord_eq_unknownOpcode {decode : Decoder} {document : Json} {record : Record} {tag : String}
    (hrecord : Record.ofJson document = .ok record) (htag : record.tag? = some tag)
    (hunknown : Opcode.ofName? tag = none) :
    decodeRecord decode document = .error (.unknownOpcode tag) := by
  unfold decodeRecord
  simp only [hrecord, Record.tag, htag, Traverse.mapError_ok, Traverse.ok_bind, hunknown]

/-- A decoded record has been read, it tells the sort of some operations, and is decoded as this sort says. -/
theorem exists_tag_of_decodeRecord {decode : Decoder} {document : Json} {ops : List Op}
    (h : decodeRecord decode document = .ok ops) :
    ∃ record code, Record.ofJson document = .ok record ∧ record.tag? = some code.name ∧
      opsOfRecord decode record code = .ok ops := by
  unfold decodeRecord at h
  cases hrecord : Record.ofJson document with
  | error fault =>
    rw [hrecord] at h
    cases h
  | ok record =>
    rw [hrecord, Traverse.mapError_ok, Traverse.ok_bind] at h
    obtain ⟨tag, htag, h⟩ := Traverse.bind_eq_ok_iff.mp h
    split at h
    · next code hcode =>
      refine ⟨record, code, rfl, ?_, h⟩
      obtain rfl : code.name = tag := by simpa using List.find?_some hcode
      unfold Record.tag at htag
      split at htag
      · next told htold =>
        obtain rfl : told = code.name := Except.ok.inj htag
        exact htold
      · cases htag
    · cases h

theorem exists_of_decodeRecord {decode : Decoder} {document : Json} {ops : List Op}
    (h : decodeRecord decode document = .ok ops) :
    ∃ record code, Record.ofJson document = .ok record ∧ opsOfRecord decode record code = .ok ops := by
  obtain ⟨record, code, hrecord, -, hops⟩ := exists_tag_of_decodeRecord h
  exact ⟨record, code, hrecord, hops⟩

/-- The literal of an operation of a record is the value of the record, and the parts of the operation are
decoded from documents in it. -/
theorem of_opsOfRecord {decode : Decoder} {record : Record} {code : Opcode} {ops : List Op}
    (h : opsOfRecord decode record code = .ok ops) {op : Op} (hop : op ∈ ops) :
    (∀ value, op = .literal value → value = (record.value?.map Value.ofJson).getD .null) ∧
      ∀ part ∈ op.parts, ∃ json, record.HoldsProgram json ∧ decode json = .ok part := by
  cases code with
  | createArray =>
    obtain ⟨elements, helements, h⟩ := Traverse.bind_eq_ok_iff.mp h
    obtain rfl := Except.ok.inj h
    obtain rfl := List.mem_singleton.mp hop
    refine ⟨by simp, fun part hpart => ?_⟩
    obtain ⟨json, hjson, hprogram⟩ := Traverse.exists_of_mem_mapM helements hpart
    exact ⟨json, .element hjson, hprogram⟩
  | createObject =>
    obtain ⟨entries, hentries, h⟩ := Traverse.bind_eq_ok_iff.mp h
    obtain rfl := Except.ok.inj h
    obtain rfl := List.mem_singleton.mp hop
    refine ⟨by simp, fun part hpart => ?_⟩
    obtain ⟨entry, hentry, rfl⟩ := List.mem_map.mp hpart
    obtain ⟨source, hsource, hresult⟩ := Traverse.exists_of_mem_mapM hentries hentry
    obtain ⟨program, hprogram, hresult⟩ := Traverse.bind_eq_ok_iff.mp hresult
    obtain rfl := Except.ok.inj hresult
    exact ⟨source.2, .entry hsource, hprogram⟩
  | pipe =>
    obtain ⟨sourceJson, hsourceJson, h⟩ := Traverse.bind_eq_ok_iff.mp h
    obtain ⟨targetJson, htargetJson, h⟩ := Traverse.bind_eq_ok_iff.mp h
    obtain ⟨source, hsource, h⟩ := Traverse.bind_eq_ok_iff.mp h
    obtain ⟨target, htarget, h⟩ := Traverse.bind_eq_ok_iff.mp h
    obtain rfl := Except.ok.inj h
    obtain rfl := List.mem_singleton.mp hop
    refine ⟨by simp, ?_⟩
    rw [Op.parts_pipe, List.forall_mem_cons, List.forall_mem_singleton]
    exact ⟨⟨sourceJson, .source (required_eq_ok_iff.mp hsourceJson), hsource⟩,
      ⟨targetJson, .target (required_eq_ok_iff.mp htargetJson), htarget⟩⟩
  | pick =>
    obtain ⟨key, -, h⟩ := Traverse.bind_eq_ok_iff.mp h
    obtain rfl := Except.ok.inj h
    rcases List.mem_cons.mp hop with rfl | hop
    · simp [Op.parts]
    rcases List.mem_append.mp hop with hop | hop
    · obtain ⟨position, -, rfl⟩ := List.mem_map.mp hop
      simp [Op.parts]
    · split at hop
      · obtain rfl := List.mem_singleton.mp hop
        simp [Op.parts]
      · cases hop
  | index =>
    obtain ⟨position, -, h⟩ := Traverse.bind_eq_ok_iff.mp h
    obtain rfl := Except.ok.inj h
    obtain rfl := List.mem_singleton.mp hop
    simp [Op.parts]
  | _ =>
    obtain rfl := Except.ok.inj h
    obtain rfl := List.mem_singleton.mp hop
    simp [Op.parts]

/-- Suppose that a document has a property that it hands on to its items and members.  What then holds of the
operations of every record with the property, as soon as it holds of all operations inside them, holds of all
operations of the program that is decoded from the document. -/
theorem induction_of_ofJson {D : Json → Prop} (hD : ∀ {json : Json}, D json → json.ChildrenHave D)
    {P : Op → Prop}
    (step : ∀ {json record code ops}, D json → Record.ofJson json = .ok record →
      opsOfRecord ofJson record code = .ok ops →
      ∀ op ∈ ops, (∀ part ∈ op.parts, ∀ inner ∈ part, P inner) → P op)
    {document : Json} {program : Program} (hdocument : D document) (h : ofJson document = .ok program) :
    ∀ op ∈ program, P op := by
  -- Records hold programs of documents that nest less deep.
  induction hn : document.nesting using Nat.strongRecOn generalizing document program with
  | _ n ih =>
    subst hn
    intro op hop
    obtain ⟨item, hitem, ops, hdecoded, hop⟩ := exists_record_of_ofJson h hop
    obtain ⟨record, code, hrecord, hops⟩ := exists_of_decodeRecord hdecoded
    have hitemD := Json.of_mem_records hD hdocument hitem
    refine step hitemD hrecord hops op hop fun part hpart => ?_
    obtain ⟨json, hjson, hprogram⟩ := (of_opsOfRecord hops hop).2 part hpart
    have hjsonD := (Record.partsHave_of_ofJson hD hrecord (hD hitemD)).of_holdsProgram hjson
    have hlt := (Record.partsBelow_of_ofJson hrecord).nesting_lt hjson
    exact ih json.nesting (Nat.lt_of_lt_of_le hlt (Json.nesting_le_of_mem_records hitem)) hjsonD hprogram rfl

/-! ## Nesting -/

/-- Every decoded program nests less deep than its document, as far as documents nest below a bound. -/
def NestsBelow (decode : Decoder) (n : Nat) : Prop :=
  ∀ json : Json, json.nesting < n → ∀ program, decode json = .ok program →
    nesting program < json.nesting

/-- An operation whose parts come from documents below a bound nests below this bound itself. -/
theorem nesting_lt_of_parts {op : Op} {n : Nat} (hn : 0 < n)
    (hparts : ∀ part ∈ op.parts, nesting part + 1 < n) : op.nesting < n := by
  have hle : op.nesting ≤ n - 1 := Op.nesting_le_iff.mpr fun part hpart => by
    have := hparts part hpart
    omega
  omega

/-- The operations of a record nest less deep than its document, if the programs inside it do. -/
theorem nesting_opsOfRecord_lt {decode : Decoder} {record : Record} {n : Nat}
    (hdecode : NestsBelow decode n) (hn : 0 < n) (below : record.PartsBelow n) {code : Opcode}
    {ops : List Op} (h : opsOfRecord decode record code = .ok ops) :
    ∀ op ∈ ops, op.nesting < n := by
  intro op hop
  refine nesting_lt_of_parts hn fun part hpart => ?_
  obtain ⟨json, hjson, hprogram⟩ := (of_opsOfRecord h hop).2 part hpart
  have hlt := below.nesting_lt hjson
  have hnesting := hdecode json hlt part hprogram
  omega

/-- The operations of a record nest less deep than the document of the record. -/
theorem nesting_decodeRecord_lt {decode : Decoder} {document : Json}
    (hdecode : NestsBelow decode document.nesting) {ops : List Op}
    (h : decodeRecord decode document = .ok ops) : ∀ op ∈ ops, op.nesting < document.nesting := by
  have hn : 0 < document.nesting := by
    cases document with
    | array items => exact Nat.succ_pos _
    | object members => exact Nat.succ_pos _
    | _ => cases h
  obtain ⟨record, code, hrecord, hops⟩ := exists_of_decodeRecord h
  exact nesting_opsOfRecord_lt hdecode hn (Record.partsBelow_of_ofJson hrecord) hops

/-- A decoded program nests less deep than its document. -/
theorem nesting_lt_of_ofJson {document : Json} {program : Program}
    (h : ofJson document = .ok program) : nesting program < document.nesting := by
  suffices key : ∀ n, NestsBelow ofJson n from
    key (document.nesting + 1) document (Nat.lt_succ_self _) program h
  intro n
  -- Records hold programs of documents that nest less deep, for which the bound is known.
  induction n with
  | zero => exact fun json hjson => absurd hjson (Nat.not_lt_zero _)
  | succ n ih =>
    intro json hjson program hprogram
    have hbelow : NestsBelow ofJson json.nesting := fun inner hinner =>
      ih inner (Nat.lt_of_lt_of_le hinner (Nat.le_of_lt_succ hjson))
    have hops : ∀ op ∈ program, op.nesting < json.nesting := by
      intro op hop
      obtain ⟨record, hrecord, ops, hdecoded, hop⟩ := exists_record_of_ofJson hprogram hop
      have hle := Json.nesting_le_of_mem_records hrecord
      have hinner : NestsBelow ofJson record.nesting := fun inner hinner =>
        hbelow inner (Nat.lt_of_lt_of_le hinner hle)
      exact Nat.lt_of_lt_of_le (nesting_decodeRecord_lt hinner hdecoded op hop) hle
    have hpos : json.nesting ≠ 0 := by
      intro hzero
      rw [ofJson_of_nesting_eq_zero hzero] at hprogram
      cases hprogram
    have hle : nesting program ≤ json.nesting - 1 := nesting_le_iff.mpr fun op hop => by
      have := hops op hop
      omega
    omega

end Program

end JsonFilter
