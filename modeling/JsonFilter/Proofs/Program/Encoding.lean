import JsonFilter.Proofs.Program.Literals
import JsonFilter.Proofs.Program.Shapes
import JsonFilter.Proofs.Value.RoundTrip

/-!
# Programs in record form

Every program has a record form: a list with one object for each operation, which names its sort and its parts.
Decoding the record form gives the program back, up to what documents do not show of its literals.

* `Program.toJson`: the record form of a program;
* `Program.FitsInt64`: positions and bounds are integers of 64 bits, as they are in every decoded program;
* `Program.ofJson_toJson`: what the record form is decoded to;
* `Program.ofJson_toJson_agrees`: the record form is decoded to an equal program.
-/

namespace JsonFilter

/-! ## The record form -/

/-- The record of an operation of the given sort, with the given fields. -/
def Json.opRecord (code : Opcode) (fields : List (RecordField × Json)) : Json :=
  .object (((RecordField.op, .string code.name) :: fields).map fun field => (field.1.name, field.2))

namespace Op

mutual

/-- The record form of an operation: a field for each of its data, where a bound that is not given has none. -/
def toJson : Op → Json
  | currentContext => .opRecord .currentContext []
  | literal value => .opRecord .literal [(.value, value.toJson)]
  | pick key strict => .opRecord .pick [(.key, .string key), (.strict, .bool strict)]
  | index position strict => .opRecord .index [(.index, .integer position), (.strict, .bool strict)]
  | slice start stop strict =>
    .opRecord .slice (start.toList.map (fun n => (.start, .integer n)) ++
      (stop.toList.map (fun n => (.stop, .integer n)) ++ [(.strict, .bool strict)]))
  | explode strict => .opRecord .explode [(.strict, .bool strict)]
  | createArray elements => .opRecord .createArray [(.values, .array (toJsonElements elements))]
  | createObject entries => .opRecord .createObject [(.entries, .array (toJsonEntries entries))]
  | pipe source target =>
    .opRecord .pipe [(.source, .array (toJsonOps source)), (.target, .array (toJsonOps target))]

/-- The record forms of the operations of a program. -/
def toJsonOps : List Op → List Json
  | [] => []
  | op :: rest => toJson op :: toJsonOps rest

/-- The record forms of some programs. -/
def toJsonElements : List (List Op) → List Json
  | [] => []
  | ops :: rest => .array (toJsonOps ops) :: toJsonElements rest

/-- The record forms of some entries, each an object of its name and the record form of its program. -/
def toJsonEntries : List (String × List Op) → List Json
  | [] => []
  | (key, ops) :: rest =>
    .object [("key", .string key), ("value", .array (toJsonOps ops))] :: toJsonEntries rest

end

end Op

/-- The record form of a program. -/
def Program.toJson (program : Program) : Json :=
  .array (Op.toJsonOps program)

/-- The record form of an entry. -/
def Program.entryToJson (entry : String × Program) : Json :=
  .object [("key", .string entry.1), ("value", entry.2.toJson)]

theorem Program.toJson_eq (program : Program) : program.toJson = .array (List.map Op.toJson program) := by
  have hops : Op.toJsonOps program = List.map Op.toJson program := by
    induction program with
    | nil => rfl
    | cons op rest ih => rw [Op.toJsonOps, ih, List.map_cons]
  rw [toJson, hops]

namespace Op

theorem toJsonElements_eq_map (elements : List Program) :
    toJsonElements elements = elements.map Program.toJson := by
  induction elements with
  | nil => rfl
  | cons ops rest ih =>
    rw [toJsonElements, ih]
    rfl

theorem toJsonEntries_eq_map (entries : List (String × Program)) :
    toJsonEntries entries = entries.map Program.entryToJson := by
  induction entries with
  | nil => rfl
  | cons entry rest ih =>
    obtain ⟨key, ops⟩ := entry
    rw [toJsonEntries, ih]
    rfl

end Op

/-! ## Positions -/

/-- The positions and bounds of an operation itself. -/
def Op.positions : Op → List Int
  | index position _ => [position]
  | slice start stop _ => start.toList ++ stop.toList
  | _ => []

/-- The positions of an operation, and of those inside it, are integers of 64 bits. -/
inductive Op.FitsInt64 : Op → Prop
  | intro {op : Op} (here : ∀ n ∈ op.positions, InInt64 n)
      (inside : ∀ part ∈ op.parts, ∀ inner ∈ part, FitsInt64 inner) : FitsInt64 op

/-- The positions of a program are integers of 64 bits. -/
def Program.FitsInt64 (program : Program) : Prop :=
  ∀ op ∈ program, op.FitsInt64

namespace Program

/-! ## Decoding the record form -/

/-- Reads some fields of a record one after another. -/
def readFields (record : Record) (fields : List (RecordField × Json)) : Except ShapeFault Record :=
  fields.foldlM (fun record field => record.set field.1 field.2) record

theorem readFields_cons (record : Record) (field : RecordField) (json : Json)
    (rest : List (RecordField × Json)) :
    readFields record ((field, json) :: rest) =
      record.set field json >>= fun next => readFields next rest :=
  List.foldlM_cons

theorem readFields_append (record : Record) (fields others : List (RecordField × Json)) :
    readFields record (fields ++ others) =
      readFields record fields >>= fun next => readFields next others :=
  List.foldlM_append

/-- A record in record form is read field by field. -/
theorem decodeRecord_opRecord (record : Record) {decode : Decoder} {code : Opcode}
    {fields : List (RecordField × Json)}
    (h : readFields { tag? := some code.name } fields = .ok record)
    (htag : record.tag? = some code.name) :
    decodeRecord decode (.opRecord code fields) = opsOfRecord decode record code := by
  have hrecord : Record.ofJson (.opRecord code fields) = .ok record := by
    rw [Json.opRecord, Record.ofJson, List.foldlM_map, List.foldlM_cons]
    simp only [Record.setNamed, RecordField.ofName?_name]
    exact h
  exact decodeRecord_eq_opsOfRecord hrecord htag

/-- A literal that is left out for null stands for null. -/
theorem exists_orNull_value (json : Json) : ∃ content, Json.orNull .ok json = .ok content ∧
    (content.map Value.ofJson).getD .null = Value.ofJson json := by
  cases json with
  | null => exact ⟨none, rfl, rfl⟩
  | _ => exact ⟨some _, rfl, rfl⟩

/-- The record of a literal is decoded to the value that its document stands for. -/
theorem decodeRecord_literal (decode : Decoder) (document : Json) :
    decodeRecord decode (.opRecord .literal [(.value, document)]) =
      .ok [.literal (Value.ofJson document)] := by
  obtain ⟨content, hcontent, hvalue⟩ := exists_orNull_value document
  have hread : readFields { tag? := some Opcode.literal.name } [(.value, document)] =
      .ok { tag? := some Opcode.literal.name, value? := content } := by
    rw [readFields_cons, Record.set, hcontent]
    rfl
  rw [decodeRecord_opRecord _ hread rfl, ← hvalue]
  rfl

theorem orNull_asInt64_integer {n : Int} (h : InInt64 n) :
    Json.orNull Json.asInt64 (.integer n) = .ok (some n) := by
  have hread : (Json.integer n).asInt64 = .ok n := if_pos h
  rw [Json.orNull, hread]
  · rfl
  · exact nofun

/-- A bound that is given is read, and one that is left out changes nothing. -/
theorem readFields_bound {record : Record} {field : RecordField} (read : Option Int → Record)
    (hnone : read none = record)
    (hsome : ∀ n, InInt64 n → record.set field (.integer n) = .ok (read (some n)))
    {bound : Option Int} (hbound : ∀ n ∈ bound, InInt64 n) :
    readFields record (bound.toList.map fun n => (field, .integer n)) = .ok (read bound) := by
  cases bound with
  | none => exact congrArg Except.ok hnone.symm
  | some n =>
    show readFields record [(field, .integer n)] = _
    rw [readFields_cons, hsome n (hbound n rfl)]
    rfl

theorem readFields_slice {start stop : Option Int} (hstart : ∀ n ∈ start, InInt64 n)
    (hstop : ∀ n ∈ stop, InInt64 n) (strict : Bool) :
    readFields { tag? := some Opcode.slice.name }
        (start.toList.map (fun n => (.start, .integer n)) ++
          (stop.toList.map (fun n => (.stop, .integer n)) ++ [(.strict, .bool strict)])) =
      .ok { tag? := some Opcode.slice.name, start? := start, stop? := stop, strict? := some strict } := by
  have hsetStart : ∀ (record : Record) n, InInt64 n →
      record.set .start (.integer n) = .ok { record with start? := some n } := by
    intro record n hn
    rw [Record.set, orNull_asInt64_integer hn]
    rfl
  have hsetStop : ∀ (record : Record) n, InInt64 n →
      record.set .stop (.integer n) = .ok { record with stop? := some n } := by
    intro record n hn
    rw [Record.set, orNull_asInt64_integer hn]
    rfl
  rw [readFields_append, readFields_bound (fun start? => { tag? := some Opcode.slice.name, start? })
    rfl (hsetStart _) hstart, Traverse.ok_bind, readFields_append, readFields_bound
    (fun stop? => { tag? := some Opcode.slice.name, start? := start, stop? }) rfl (hsetStop _) hstop]
  rfl

theorem mapM_asEntry (entries : List (String × Program)) :
    (entries.map entryToJson).mapM Json.asEntry = .ok (Fields.mapValues toJson entries) := by
  rw [List.mapM_map]
  exact Traverse.mapM_eq_ok_map fun entry _ => rfl

/-- The record form of an operation is decoded to the operation with the normal form of its literal, if the record
forms of the programs inside it are decoded in the same way. -/
theorem decodeRecord_toJson {op : Op} (hliteral : ∀ value, op = .literal value → value.DistinctNames)
    (hpositions : ∀ n ∈ op.positions, InInt64 n)
    (hparts : ∀ part ∈ op.parts, ofJson (toJson part) = .ok (mapData Value.normalize id part)) :
    decodeRecord ofJson op.toJson = .ok [op.mapData Value.normalize id] := by
  cases op with
  | currentContext => exact decodeRecord_opRecord { tag? := some Opcode.currentContext.name } rfl rfl
  | literal value =>
    rw [Op.toJson, decodeRecord_literal, Value.ofJson_toJson_eq_normalize (hliteral value rfl),
      Op.mapData_literal]
  | pick key strict =>
    rw [Op.toJson, decodeRecord_opRecord
      { tag? := some Opcode.pick.name, key? := some key, strict? := some strict } rfl rfl]
    rfl
  | index position strict =>
    have hread : readFields { tag? := some Opcode.index.name }
        [(.index, .integer position), (.strict, .bool strict)] =
          .ok { tag? := some Opcode.index.name, index? := some position, strict? := some strict } := by
      rw [readFields_cons, Record.set, orNull_asInt64_integer (hpositions position List.mem_cons_self)]
      rfl
    rw [Op.toJson, decodeRecord_opRecord _ hread rfl]
    rfl
  | slice start stop strict =>
    have hstart : ∀ n ∈ start, InInt64 n := fun n hn =>
      hpositions n (List.mem_append_left _ (Option.mem_toList.mpr hn))
    have hstop : ∀ n ∈ stop, InInt64 n := fun n hn =>
      hpositions n (List.mem_append_right _ (Option.mem_toList.mpr hn))
    have hread := readFields_slice hstart hstop strict
    rw [Op.toJson, decodeRecord_opRecord _ hread rfl]
    rfl
  | explode strict =>
    rw [Op.toJson, decodeRecord_opRecord
      { tag? := some Opcode.explode.name, strict? := some strict } rfl rfl]
    rfl
  | createArray elements =>
    rw [Op.toJson, Op.toJsonElements_eq_map, decodeRecord_opRecord
      { tag? := some Opcode.createArray.name, values := elements.map toJson } rfl rfl,
      Op.mapData_createArray]
    refine Traverse.bind_eq_ok_iff.mpr ⟨elements.map (mapData Value.normalize id), ?_, rfl⟩
    show (elements.map toJson).mapM ofJson = _
    rw [List.mapM_map]
    exact Traverse.mapM_eq_ok_map hparts
  | createObject entries =>
    have hread : readFields { tag? := some Opcode.createObject.name }
        [(.entries, .array (entries.map entryToJson))] =
          .ok { tag? := some Opcode.createObject.name, entries := Fields.mapValues toJson entries } := by
      rw [readFields_cons, Record.set, Json.asList, Traverse.ok_bind, mapM_asEntry]
      rfl
    rw [Op.toJson, Op.toJsonEntries_eq_map, decodeRecord_opRecord _ hread rfl, Op.mapData_createObject]
    refine Traverse.bind_eq_ok_iff.mpr ⟨Fields.mapValues (mapData Value.normalize id) entries, ?_, rfl⟩
    show (entries.map fun entry => (entry.1, toJson entry.2)).mapM _ = _
    rw [List.mapM_map]
    refine Traverse.mapM_eq_ok_map fun entry hentry => ?_
    show (ofJson (toJson entry.2) >>= fun part => .ok (entry.1, part)) = _
    rw [hparts entry.2 (Op.mem_parts_createObject hentry)]
    rfl
  | pipe source target =>
    have hread : readFields { tag? := some Opcode.pipe.name }
        [(.source, toJson source), (.target, toJson target)] =
          .ok { tag? := some Opcode.pipe.name
                source? := some (toJson source)
                target? := some (toJson target) } := rfl
    rw [Op.toJson, Op.mapData_pipe]
    refine (decodeRecord_opRecord _ hread rfl).trans ?_
    show (ofJson (toJson source) >>= fun first => ofJson (toJson target) >>= fun second =>
      .ok [Op.pipe first second]) = _
    rw [hparts source (by simp), hparts target (by simp)]
    rfl

/-- The record form of a program is decoded to the program with the normal forms of its literals. -/
theorem ofJson_toJson {program : Program} (hliterals : ∀ value, program.HasLiteral value → value.DistinctNames)
    (hfits : program.FitsInt64) : ofJson program.toJson = .ok (program.mapData Value.normalize id) := by
  refine Program.induction
    (P := fun op => (∀ value, op.HasLiteral value → value.DistinctNames) → op.FitsInt64 →
      decodeRecord ofJson op.toJson = .ok [op.mapData Value.normalize id])
    (Q := fun program => (∀ value, HasLiteral value program → value.DistinctNames) →
      FitsInt64 program → ofJson (toJson program) = .ok (mapData Value.normalize id program))
    ?_ ?_ program hliterals hfits
  · rintro op hparts hliterals ⟨hpositions, hinside⟩
    obtain ⟨hown, hliterals⟩ := Op.forall_hasLiteral_iff.mp hliterals
    exact decodeRecord_toJson hown hpositions fun part hpart =>
      hparts part hpart (hliterals part hpart) (hinside part hpart)
  · intro program hops hliterals hfits
    have hliterals := forall_hasLiteral_iff.mp hliterals
    have hrecords : List.mapM (decodeRecord ofJson ∘ Op.toJson) program =
        .ok (program.map fun op => [op.mapData Value.normalize id]) :=
      Traverse.mapM_eq_ok_map fun op hop => hops op hop (hliterals op hop) (hfits op hop)
    rw [toJson_eq, ofJson_array, List.mapM_map, hrecords, mapData_eq_map]
    show Except.ok (List.flatten _) = _
    rw [← List.flatMap_def, ← List.map_eq_flatMap]

/-- The record form of a program with well-formed literals is decoded to the program, but for the signs of
zeros. -/
theorem ofJson_toJson_of_wellFormed {program : Program} (hwell : program.WellFormed)
    (hfits : program.FitsInt64) : ofJson program.toJson = .ok program.unsignZeros := by
  rw [ofJson_toJson (fun value hvalue => (hwell value hvalue).distinctNames) hfits]
  refine congrArg Except.ok (mapData_congr fun value hvalue => ?_)
  exact Value.normalize_eq_unsignZeros fun _ => (hwell value hvalue).isFinite

/-- A program with well-formed literals equals itself without the signs of zeros. -/
theorem agrees_unsignZeros {program : Program} (hwell : program.WellFormed) :
    program.unsignZeros.agrees program = true := by
  rw [agrees_iff]
  constructor
  · refine forall_hasLiteral_mapData_iff.mpr fun value hvalue => ?_
    have hfree := (Value.wellFormed_normalize (hwell value hvalue).distinctNames).nanFree
    rwa [Value.normalize_eq_unsignZeros fun _ => (hwell value hvalue).isFinite] at hfree
  · rw [unsignZeros, mapData_mapData]
    exact mapData_congr fun value _ => Value.unsignZeros_unsignZeros value

/-! ## The positions of decoded programs -/

/-- The positions of an operation of a record stand in the record. -/
theorem of_mem_positions {decode : Decoder} {record : Record} {code : Opcode} {ops : List Op}
    (h : opsOfRecord decode record code = .ok ops) {op : Op} (hop : op ∈ ops) {n : Int}
    (hn : n ∈ op.positions) : n ∈ record.index? ∨ n ∈ record.start? ∨ n ∈ record.stop? := by
  cases code with
  | pick =>
    obtain ⟨key, -, h⟩ := Traverse.bind_eq_ok_iff.mp h
    obtain rfl := Except.ok.inj h
    rcases List.mem_cons.mp hop with rfl | hop
    · cases hn
    rcases List.mem_append.mp hop with hop | hop
    · obtain ⟨position, hposition, rfl⟩ := List.mem_map.mp hop
      obtain rfl := List.mem_singleton.mp hn
      exact .inl (Option.mem_toList.mp hposition)
    · split at hop
      · obtain rfl := List.mem_singleton.mp hop
        cases hn
      · cases hop
  | index =>
    obtain ⟨position, hposition, h⟩ := Traverse.bind_eq_ok_iff.mp h
    obtain rfl := Except.ok.inj h
    obtain rfl := List.mem_singleton.mp hop
    obtain rfl := List.mem_singleton.mp hn
    exact .inl (required_eq_ok_iff.mp hposition)
  | slice =>
    obtain rfl := Except.ok.inj h
    obtain rfl := List.mem_singleton.mp hop
    rcases List.mem_append.mp hn with hn | hn
    · exact .inr (.inl (Option.mem_toList.mp hn))
    · exact .inr (.inr (Option.mem_toList.mp hn))
  | createArray | createObject =>
    obtain ⟨parts, -, h⟩ := Traverse.bind_eq_ok_iff.mp h
    obtain rfl := Except.ok.inj h
    obtain rfl := List.mem_singleton.mp hop
    cases hn
  | pipe =>
    obtain ⟨sourceJson, -, h⟩ := Traverse.bind_eq_ok_iff.mp h
    obtain ⟨targetJson, -, h⟩ := Traverse.bind_eq_ok_iff.mp h
    obtain ⟨source, -, h⟩ := Traverse.bind_eq_ok_iff.mp h
    obtain ⟨target, -, h⟩ := Traverse.bind_eq_ok_iff.mp h
    obtain rfl := Except.ok.inj h
    obtain rfl := List.mem_singleton.mp hop
    cases hn
  | _ =>
    obtain rfl := Except.ok.inj h
    obtain rfl := List.mem_singleton.mp hop
    cases hn

theorem inInt64_of_orNull {json : Json} {content : Option Int}
    (h : Json.orNull Json.asInt64 json = .ok content) : ∀ n ∈ content, InInt64 n := by
  rintro n hn
  obtain rfl := Option.mem_def.mp hn
  cases json with
  | integer m =>
    obtain ⟨_, hread, heq⟩ := Traverse.map_eq_ok_iff.mp h
    exact Option.some.inj heq ▸ (Json.asInt64_eq_ok_iff.mp hread).2
  | _ => cases h

/-- The positions of a decoded program are integers of 64 bits. -/
theorem fitsInt64_of_ofJson {document : Json} {program : Program} (h : ofJson document = .ok program) :
    program.FitsInt64 := by
  refine induction_of_ofJson (D := fun _ => True) (fun {json} _ => by cases json <;> simp [Json.ChildrenHave])
    (fun {_ record _ _} _ hrecord hops op hop hinside => ?_) trivial h
  refine .intro (fun n hn => ?_) hinside
  rcases of_mem_positions hops hop hn with hn | hn | hn
  · exact Record.get_of_ofJson .index (P := fun content => ∀ n ∈ content, InInt64 n) nofun
      inInt64_of_orNull hrecord n hn
  · exact Record.get_of_ofJson .start (P := fun content => ∀ n ∈ content, InInt64 n) nofun
      inInt64_of_orNull hrecord n hn
  · exact Record.get_of_ofJson .stop (P := fun content => ∀ n ∈ content, InInt64 n) nofun
      inInt64_of_orNull hrecord n hn

/-! ## Programs and their record forms -/

/-- The record form of a program with finite numbers is decoded to an equal program, the same one but for the signs
of zeros; here no object in a literal repeats a name, and all positions are integers of 64 bits.  A program that has
been decoded from a document with finite numbers is of this kind, so its record form stands for the same program as
the document does. -/
theorem ofJson_toJson_agrees :
    (∀ program : Program, (∀ value, program.HasLiteral value → value.DistinctNames) →
      (∀ x, program.HasNumber x → x.IsFinite) → program.FitsInt64 →
      ofJson program.toJson = .ok program.unsignZeros ∧ program.unsignZeros.agrees program = true) ∧
    ∀ (document : Json) (program : Program), document.WellFormed → ofJson document = .ok program →
      ofJson program.toJson = .ok program.unsignZeros ∧ program.unsignZeros.agrees program = true := by
  have hround : ∀ program : Program, program.WellFormed → program.FitsInt64 →
      ofJson program.toJson = .ok program.unsignZeros ∧ program.unsignZeros.agrees program = true :=
    fun program hwell hfits => ⟨ofJson_toJson_of_wellFormed hwell hfits, agrees_unsignZeros hwell⟩
  constructor
  · intro program hnames hfinite hfits
    refine hround program (fun value hvalue => ?_) hfits
    exact (hnames value hvalue).wellFormed fun x hx => hfinite x ⟨value, hvalue, hx⟩
  · intro document program hdocument h
    exact hround program (wellFormed_of_ofJson hdocument h) (fitsInt64_of_ofJson h)

/-- A negative zero in front of a slice without an end: the program is decoded, put into record form and decoded
again. -/
theorem ofJson_toJson_agrees_zero :
    let document : Json := .object [("op", .string "pipe"),
      ("in", .object [("op", .string "literal"), ("value", .float (.zero true))]),
      ("out", .array [.object [("op", .string "slice"), ("start", .integer (-1)), ("strict", .bool false)]])]
    let program : Program := [.pipe [.literal (.number (.zero true))] [.slice (some (-1)) none false]]
    ofJson document = .ok program ∧
      ofJson program.toJson =
        .ok [.pipe [.literal (.number (.zero false))] [.slice (some (-1)) none false]] ∧
      agrees [.pipe [.literal (.number (.zero false))] [.slice (some (-1)) none false]] program = true := by
  intro document program
  have hzero : (Binary64.zero true).IsFinite := by decide
  have hliteral : Json.WellFormed (.object [("op", .string "literal"), ("value", .float (.zero true))]) :=
    .object (List.forall_mem_cons.mpr ⟨.string _, List.forall_mem_singleton.mpr (.float hzero)⟩)
  have hslice : Json.WellFormed
      (.object [("op", .string "slice"), ("start", .integer (-1)), ("strict", .bool false)]) :=
    .object (List.forall_mem_cons.mpr ⟨.string _, List.forall_mem_cons.mpr
      ⟨.integer ⟨by decide, by decide⟩, List.forall_mem_singleton.mpr (.bool _)⟩⟩)
  have hdocument : document.WellFormed := .object (List.forall_mem_cons.mpr ⟨.string _,
    List.forall_mem_cons.mpr ⟨hliteral,
      List.forall_mem_singleton.mpr (.array (List.forall_mem_singleton.mpr hslice))⟩⟩)
  have hdecoded : ofJson document = .ok program := by rfl
  have hwell := wellFormed_of_ofJson hdocument hdecoded
  have hround := ofJson_toJson_agrees.1 program (fun value hvalue => (hwell value hvalue).distinctNames)
    (fun x ⟨value, hvalue, hx⟩ => (hwell value hvalue).isFinite hx) (fitsInt64_of_ofJson hdecoded)
  exact ⟨hdecoded, (ofJson_toJson_agrees.2 document program hdocument hdecoded).1, hround.2⟩

end Program

end JsonFilter
