import JsonFilter.Proofs.Evaluation.Sequencing
import JsonFilter.Proofs.Program.Encoding
import JsonFilter.Proofs.Program.Spellings
import JsonFilter.Proofs.Program.Substitution

/-!
# Picks that fold other operations

A pick may carry an index and an explosion in its own record.  Unfolding writes these as records of their own,
which follow the pick and are as strict as it is, wherever a program stands in a document.  It is a matter of
spelling: the unfolded document is decoded to the same program.  So the operations of a list of records are one
for each record, and one more for each index and each explosion that a pick of the list folds.

* `Json.foldsIndex`, `Json.foldsExplode`: the picks that fold something;
* `Json.unfold`, `Json.unfold_eq`: a document without them, at every depth;
* `Program.ofJson_unfoldRecord`: a record and its unfolded form are decoded to the same operations;
* `Program.length_of_ofJson_array`: how many operations a list of records has;
* `Program.ofJson_unfold_eq`: the unfolded document is decoded to the same program.
-/

namespace JsonFilter

namespace Json

/-! ## What a pick folds -/

/-- The sort of the operation that a record tells. -/
def opcode? (record : Json) : Option Opcode :=
  match record.field? .op with
  | some (string tag) => Opcode.ofName? tag
  | _ => none

/-- A record is that of a pick with an index that is not null. -/
def foldsIndex (record : Json) : Bool :=
  record.opcode? = some .pick && record.provides .index

/-- A field holds the truth value true. -/
def isTrue (record : Json) (field : RecordField) : Bool :=
  match record.field? field with
  | some (bool b) => b
  | _ => false

/-- A record is that of a pick that explodes what it has picked. -/
def foldsExplode (record : Json) : Bool :=
  record.opcode? = some .pick && record.isTrue .explode

/-- What stands in a field, or what says nothing if the field is not there. -/
def fieldD (record : Json) (field : RecordField) : Json :=
  (record.field? field).getD field.blank

/-! ## Unfolding -/

/-- The records of a pick and of what it folds: the pick by itself, then the index, then the explosion, all with
the same strictness. -/
def unfoldedPick (record : Json) : List Json :=
  let strict := (RecordField.strict, record.fieldD .strict)
  opRecord .pick [(.key, record.fieldD .key), strict] ::
    ((if record.foldsIndex then [opRecord .index [(.index, record.fieldD .index), strict]] else []) ++
      if record.foldsExplode then [opRecord .explode [strict]] else [])

/-- A record in which a function has been applied to the documents that stand in the places of programs. -/
def unfoldPrograms (f : Json → Json) (record : Json) : Json :=
  record.opcode?.elim record (record.mapPrograms f)

/-- The records that take the place of a record, where `f` unfolds the programs inside it. -/
def unfoldRecord (f : Json → Json) (record : Json) : List Json :=
  if record.foldsIndex || record.foldsExplode then record.unfoldedPick else [record.unfoldPrograms f]

/-- A document with its records unfolded, where `f` unfolds the programs inside them.  A pick that stands by itself
becomes a list if it folds something. -/
def unfoldWith (f : Json → Json) : Json → Json
  | array records => array (records.flatMap (unfoldRecord f))
  | object members =>
    if (object members).foldsIndex || (object members).foldsExplode then array (object members).unfoldedPick
    else (object members).unfoldPrograms f
  | other => other

/-- A document of at most the given nesting, unfolded. -/
def unfoldNested : Nat → Json → Json
  | 0 => id
  | depth + 1 => unfoldWith (unfoldNested depth)

/-- A document in which no pick folds another operation, wherever programs stand in it. -/
def unfold (document : Json) : Json :=
  unfoldNested document.nesting document

section Equation

variable {f g : Json → Json}

theorem unfoldPrograms_congr {record : Json}
    (h : ∀ child : Json, child.nesting < record.nesting → f child = g child) :
    record.unfoldPrograms f = record.unfoldPrograms g := by
  unfold unfoldPrograms
  rw [funext (mapPrograms_congr h)]

theorem unfoldRecord_congr {record : Json}
    (h : ∀ child : Json, child.nesting < record.nesting → f child = g child) :
    unfoldRecord f record = unfoldRecord g record := by
  rw [unfoldRecord, unfoldRecord, unfoldPrograms_congr h]

/-- Only documents that nest less deep are unfolded on the way. -/
theorem unfoldWith_congr {document : Json}
    (h : ∀ child : Json, child.nesting < document.nesting → f child = g child) :
    unfoldWith f document = unfoldWith g document := by
  cases document with
  | array records =>
    refine congrArg array (List.flatMap_congr fun record hrecord => unfoldRecord_congr fun child hchild => ?_)
    exact h child (Nat.lt_trans hchild (nesting_lt_of_mem_items hrecord))
  | object members => rw [unfoldWith, unfoldWith, unfoldPrograms_congr h]
  | _ => rfl

/-- A depth that the document does not exceed does not matter. -/
theorem unfoldNested_eq {depth : Nat} {document : Json} (h : document.nesting ≤ depth) :
    unfoldNested depth document = unfold document := by
  suffices key : ∀ n m (document : Json), document.nesting ≤ n → document.nesting ≤ m →
      unfoldNested n document = unfoldNested m document from key _ _ _ h (Nat.le_refl _)
  clear h document depth
  have hscalar : ∀ n (document : Json), document.nesting ≤ 0 → unfoldNested n document = document := by
    intro n document h
    cases n with
    | zero => rfl
    | succ n =>
      cases document with
      | array items => exact absurd h (Nat.not_succ_le_zero _)
      | object members => exact absurd h (Nat.not_succ_le_zero _)
      | _ => rfl
  intro n
  induction n with
  | zero =>
    intro m document hn _
    rw [hscalar m document hn]
    rfl
  | succ n ih =>
    intro m document hn hm
    cases m with
    | zero => exact hscalar _ document hm
    | succ m => exact unfoldWith_congr fun child hchild => ih m child (by omega) (by omega)

/-- A document is unfolded together with all programs inside its records. -/
theorem unfold_eq (document : Json) : document.unfold = unfoldWith unfold document := by
  rw [← unfoldNested_eq (Nat.le_succ document.nesting)]
  exact unfoldWith_congr fun child hchild => unfoldNested_eq (Nat.le_of_lt hchild)

/-- A record that is an object remains one if it folds nothing. -/
theorem exists_unfoldPrograms_object (f : Json → Json) (members : List (String × Json)) :
    ∃ members', (object members).unfoldPrograms f = object members' := by
  unfold unfoldPrograms
  cases (object members).opcode? with
  | none => exact ⟨members, rfl⟩
  | some code => cases code <;> exact ⟨_, rfl⟩

theorem unfold_eq_null_iff {document : Json} : document.unfold = null ↔ document = null := by
  rw [unfold_eq]
  cases document with
  | array records => simp [unfoldWith]
  | object members =>
    obtain ⟨members', hmembers⟩ := exists_unfoldPrograms_object unfold members
    rw [unfoldWith, hmembers]
    split <;> simp
  | _ => exact Iff.rfl

end Equation

/-! ## The number of records -/

theorem toNat_eq_ite (b : Bool) : b.toNat = if b = true then 1 else 0 := by
  cases b <;> rfl

theorem length_unfoldRecord (f : Json → Json) (record : Json) :
    (record.unfoldRecord f).length = 1 + record.foldsIndex.toNat + record.foldsExplode.toNat := by
  unfold unfoldRecord unfoldedPick
  cases record.foldsIndex <;> cases record.foldsExplode <;> rfl

/-- A list of records is unfolded to one record for each of them, and one for all that its own picks fold. -/
theorem length_flatMap_unfoldRecord (f : Json → Json) (records : List Json) :
    (records.flatMap (unfoldRecord f)).length =
      records.length + records.countP foldsIndex + records.countP foldsExplode := by
  induction records with
  | nil => rfl
  | cons record rest ih =>
    rw [List.flatMap_cons, List.length_append, length_unfoldRecord, ih, List.length_cons, List.countP_cons,
      List.countP_cons, ← toNat_eq_ite, ← toNat_eq_ite]
    omega

/-! ## Reading what a pick folds -/

variable {record : Json}

theorem opcode?_eq_some_iff {code : Opcode} :
    record.opcode? = some code ↔ record.field? .op = some (string code.name) := by
  unfold opcode?
  constructor
  · intro h
    split at h
    · next tag htag =>
      have hname : code.name = tag := by simpa using List.find?_some h
      rw [htag, hname]
    · cases h
  · intro h
    rw [h]
    exact Opcode.ofName?_name code

/-- A field is read in the same way whether it is left out or says nothing. -/
theorem read_fieldD {field : RecordField} (hfield : field ≠ .op) :
    field.read (record.fieldD field) = record.content field := by
  unfold content fieldD
  cases record.field? field with
  | none => exact RecordField.read_blank hfield
  | some part => rfl

/-- What is read from the field for explosions is whether it holds true. -/
theorem isTrue_of_content {b : Bool} (h : record.content .explode = .ok b) : record.isTrue .explode = b := by
  unfold content at h
  unfold isTrue
  cases hpart : record.field? .explode with
  | none =>
    rw [hpart] at h
    exact Except.ok.inj h
  | some part =>
    rw [hpart] at h
    obtain rfl := asBool_eq_ok_iff.mp h
    rfl

end Json

namespace Program

/-! ## The records of single operations -/

variable {decode : Decoder} {strictJson : Json} {strict? : Option Bool}

theorem readFields_of_read {record : Record} {field : RecordField} {json : Json} {content : field.Content}
    (hread : field.read json = .ok content) (rest : List (RecordField × Json)) :
    readFields record ((field, json) :: rest) =
      readFields (Record.ofContents (Function.update record.get field content)) rest := by
  rw [readFields_cons, Record.set_eq_bind, hread]
  rfl

theorem decodeRecord_pick {keyJson : Json} {key : String} (hkey : RecordField.key.read keyJson = .ok (some key))
    (hstrict : RecordField.strict.read strictJson = .ok strict?) :
    decodeRecord decode (.opRecord .pick [(.key, keyJson), (.strict, strictJson)]) =
      .ok [.pick key (strict?.getD true)] := by
  have hread : readFields { tag? := some Opcode.pick.name } [(.key, keyJson), (.strict, strictJson)] =
      .ok { tag? := some Opcode.pick.name, key? := some key, strict? := strict? } := by
    rw [readFields_of_read hkey, readFields_of_read hstrict]
    rfl
  rw [decodeRecord_opRecord _ hread rfl]
  rfl

theorem decodeRecord_index {indexJson : Json} {position : Int}
    (hindex : RecordField.index.read indexJson = .ok (some position))
    (hstrict : RecordField.strict.read strictJson = .ok strict?) :
    decodeRecord decode (.opRecord .index [(.index, indexJson), (.strict, strictJson)]) =
      .ok [.index position (strict?.getD true)] := by
  have hread : readFields { tag? := some Opcode.index.name } [(.index, indexJson), (.strict, strictJson)] =
      .ok { tag? := some Opcode.index.name, index? := some position, strict? := strict? } := by
    rw [readFields_of_read hindex, readFields_of_read hstrict]
    rfl
  rw [decodeRecord_opRecord _ hread rfl]
  rfl

theorem decodeRecord_explode (hstrict : RecordField.strict.read strictJson = .ok strict?) :
    decodeRecord decode (.opRecord .explode [(.strict, strictJson)]) = .ok [.explode (strict?.getD true)] := by
  have hread : readFields { tag? := some Opcode.explode.name } [(.strict, strictJson)] =
      .ok { tag? := some Opcode.explode.name, strict? := strict? } := by
    rw [readFields_of_read hstrict]
    rfl
  rw [decodeRecord_opRecord _ hread rfl]
  rfl

theorem ofJson_array_singleton (record : Json) : ofJson (.array [record]) = decodeRecord ofJson record := by
  rw [ofJson_array_cons]
  cases decodeRecord ofJson record with
  | error e => rfl
  | ok ops =>
    show Except.ok (ops ++ []) = _
    rw [List.append_nil]

/-! ## Unfolded records -/

variable {record : Json} {read : Record} {ops : List Op}

/-- A pick folds an index exactly if an index is read from it. -/
theorem foldsIndex_eq (hnames : record.DistinctNames) (hread : Record.ofJson record = .ok read)
    (hpick : record.opcode? = some .pick) : record.foldsIndex = read.index?.isSome := by
  have hprovides := Json.isSome_eq_provides (Record.content_eq_of_ofJson hnames hread .index)
  rw [Json.foldsIndex, decide_eq_true hpick, Bool.true_and]
  exact hprovides.symm

/-- A pick folds an explosion exactly if its record tells so. -/
theorem foldsExplode_eq (hnames : record.DistinctNames) (hread : Record.ofJson record = .ok read)
    (hpick : record.opcode? = some .pick) : record.foldsExplode = read.explode := by
  rw [Json.foldsExplode, decide_eq_true hpick, Bool.true_and]
  exact Json.isTrue_of_content (Record.content_eq_of_ofJson hnames hread .explode)

/-- The records that a pick is unfolded to are decoded to the operations of the pick. -/
theorem ofJson_unfoldedPick (hnames : record.DistinctNames) (hread : Record.ofJson record = .ok read)
    (hpick : record.opcode? = some .pick) (h : opsOfRecord ofJson read .pick = .ok ops) :
    ofJson (.array record.unfoldedPick) = .ok ops := by
  obtain ⟨key, hkey, h⟩ := Traverse.bind_eq_ok_iff.mp h
  obtain rfl := Except.ok.inj h
  have hfields : ∀ field : RecordField, field ≠ .op →
      field.read (record.fieldD field) = .ok (read.get field) := by
    intro field hfield
    rw [Json.read_fieldD hfield, Record.content_eq_of_ofJson hnames hread]
  have hstrict := hfields .strict (by decide)
  have hkeyRead : RecordField.key.read (record.fieldD .key) = .ok (some key) := by
    rw [hfields .key (by decide), ← required_eq_ok_iff.mp hkey]
    rfl
  have hindexes : ofJson (.array (if record.foldsIndex then
        [.opRecord .index [(.index, record.fieldD .index), (.strict, record.fieldD .strict)]] else [])) =
      .ok (read.index?.toList.map fun position => .index position (read.strict?.getD true)) := by
    rw [foldsIndex_eq hnames hread hpick]
    have hindex := hfields .index (by decide)
    cases hposition : read.index? with
    | none => rfl
    | some position =>
      have hsome : read.get .index = some position := hposition
      rw [hsome] at hindex
      exact (ofJson_array_singleton _).trans (decodeRecord_index hindex hstrict)
  have hexplosions : ofJson (.array (if record.foldsExplode then
        [.opRecord .explode [(.strict, record.fieldD .strict)]] else [])) =
      .ok (if read.explode then [.explode (read.strict?.getD true)] else []) := by
    rw [foldsExplode_eq hnames hread hpick]
    cases read.explode with
    | false => rfl
    | true => exact (ofJson_array_singleton _).trans (decodeRecord_explode hstrict)
  rw [Json.unfoldedPick, ofJson_array_cons, decodeRecord_pick hkeyRead hstrict, Traverse.ok_bind,
    ofJson_array_append, hindexes, Traverse.ok_bind, hexplosions]
  rfl

/-- A decoded record has been read, with the sort that it tells. -/
theorem exists_opcode_of_decodeRecord (hnames : record.DistinctNames) (h : decodeRecord decode record = .ok ops) :
    ∃ read code, Record.ofJson record = .ok read ∧ read.tag? = some code.name ∧ record.opcode? = some code ∧
      opsOfRecord decode read code = .ok ops := by
  obtain ⟨read, code, hread, htag, hops⟩ := exists_tag_of_decodeRecord h
  exact ⟨read, code, hread, htag,
    Json.opcode?_eq_some_iff.mpr ((Record.tag?_eq_some_iff hnames hread).mp htag), hops⟩

variable {f : Json → Json}

/-- A record with unfolded programs is decoded to the same operations, if its programs are decoded to the same
programs. -/
theorem decodeRecord_unfoldPrograms (hnames : record.DistinctNames) (hnull : ∀ part, f part = .null ↔ part = .null)
    (hdecode : ∀ part : Json, part.DistinctNames → part.nesting < record.nesting →
      ∀ program, ofJson part = .ok program → ofJson (f part) = .ok program)
    (h : decodeRecord ofJson record = .ok ops) : decodeRecord ofJson (record.unfoldPrograms f) = .ok ops := by
  obtain ⟨read, code, hread, htag, hcode, hops⟩ := exists_opcode_of_decodeRecord hnames h
  have hunfolded : Record.ofJson (record.unfoldPrograms f) = .ok (read.mapPrograms f code) := by
    rw [Json.unfoldPrograms, hcode]
    exact Record.ofJson_mapPrograms hnames hnull hread code
  have htag' : (read.mapPrograms f code).tag? = some code.name := by
    cases code <;> exact htag
  rw [decodeRecord_eq_opsOfRecord hunfolded htag']
  refine opsOfRecord_mapPrograms (fun part hpart program hprogram => ?_) hops
  have hpartNames := (Record.partsHave_of_ofJson Json.DistinctNames.children hread hnames.children).of_holdsProgram
    hpart
  exact hdecode part hpartNames ((Record.partsBelow_of_ofJson hread).nesting_lt hpart) program hprogram

/-- The records that a record is unfolded to are decoded to the operations of the record. -/
theorem ofJson_unfoldRecord (hnames : record.DistinctNames) (hnull : ∀ part, f part = .null ↔ part = .null)
    (hdecode : ∀ part : Json, part.DistinctNames → part.nesting < record.nesting →
      ∀ program, ofJson part = .ok program → ofJson (f part) = .ok program)
    (h : decodeRecord ofJson record = .ok ops) : ofJson (.array (record.unfoldRecord f)) = .ok ops := by
  unfold Json.unfoldRecord
  split
  · next hfolds =>
    obtain ⟨read, code, hread, -, hcode, hops⟩ := exists_opcode_of_decodeRecord hnames h
    have hpick : record.opcode? = some .pick := by
      rw [Json.foldsIndex, Json.foldsExplode, ← Bool.and_or_distrib_left, Bool.and_eq_true] at hfolds
      exact of_decide_eq_true hfolds.1
    obtain rfl : code = .pick := Option.some.inj (hcode.symm.trans hpick)
    exact ofJson_unfoldedPick hnames hread hpick hops
  · rw [ofJson_array_singleton]
    exact decodeRecord_unfoldPrograms hnames hnull hdecode h

/-- If each record of a list is unfolded to records of the same operations, then so is the list. -/
theorem ofJson_flatMap {records : List Json} {unfolded : Json → List Json} {program : Program}
    (hrecords : ∀ record ∈ records, ∀ ops, decodeRecord ofJson record = .ok ops →
      ofJson (.array (unfolded record)) = .ok ops)
    (h : ofJson (.array records) = .ok program) : ofJson (.array (records.flatMap unfolded)) = .ok program := by
  induction records generalizing program with
  | nil => exact h
  | cons record rest ih =>
    obtain ⟨hrecord, hrest⟩ := List.forall_mem_cons.mp hrecords
    rw [ofJson_array_cons] at h
    obtain ⟨ops, hops, h⟩ := Traverse.bind_eq_ok_iff.mp h
    obtain ⟨others, hothers, rfl⟩ := Traverse.map_eq_ok_iff.mp h
    rw [List.flatMap_cons, ofJson_array_append, hrecord ops hops, Traverse.ok_bind, ih hrest hothers]
    rfl

/-! ## Unfolded documents -/

/-- An unfolded document is decoded to the program of the document. -/
theorem ofJson_unfold {document : Json} (hnames : document.DistinctNames) {program : Program}
    (h : ofJson document = .ok program) : ofJson document.unfold = .ok program := by
  -- The programs inside a record nest less deep than the record.
  induction hn : document.nesting using Nat.strongRecOn generalizing document program with
  | _ n ih =>
    subst hn
    rw [Json.unfold_eq]
    have hdecode : ∀ {record : Json}, record.nesting ≤ document.nesting →
        ∀ part : Json, part.DistinctNames → part.nesting < record.nesting →
          ∀ program, ofJson part = .ok program → ofJson part.unfold = .ok program :=
      fun hle part hpart hlt program hprogram => ih part.nesting (Nat.lt_of_lt_of_le hlt hle) hpart hprogram rfl
    have hnull : ∀ part : Json, part.unfold = .null ↔ part = .null := fun part => Json.unfold_eq_null_iff
    cases document with
    | array records =>
      refine ofJson_flatMap (fun record hrecord ops hops => ?_) h
      exact ofJson_unfoldRecord (hnames.children record hrecord) hnull
        (hdecode (Nat.le_of_lt (Json.nesting_lt_of_mem_items hrecord))) hops
    | object members =>
      rw [ofJson_object] at h
      have hunfolded := ofJson_unfoldRecord hnames hnull (hdecode (Nat.le_refl _)) h
      unfold Json.unfoldRecord at hunfolded
      rw [Json.unfoldWith]
      split
      · next hfolds => rwa [if_pos hfolds] at hunfolded
      · next hfolds =>
        rw [if_neg hfolds, ofJson_array_singleton] at hunfolded
        obtain ⟨members', hmembers⟩ := Json.exists_unfoldPrograms_object Json.unfold members
        rw [hmembers] at hunfolded ⊢
        rwa [ofJson_object]
    | _ => cases h

/-! ## The number of operations -/

/-- A record is one operation, apart from what a pick folds. -/
theorem length_of_decodeRecord (hnames : record.DistinctNames) (h : decodeRecord ofJson record = .ok ops) :
    ops.length = 1 + record.foldsIndex.toNat + record.foldsExplode.toNat := by
  obtain ⟨read, code, hread, -, hcode, hops⟩ := exists_opcode_of_decodeRecord hnames h
  by_cases hpick : code = .pick
  · subst hpick
    rw [foldsIndex_eq hnames hread hcode, foldsExplode_eq hnames hread hcode]
    obtain ⟨key, -, hops⟩ := Traverse.bind_eq_ok_iff.mp hops
    obtain rfl := Except.ok.inj hops
    cases read.index? <;> cases read.explode <;> rfl
  · have hfolds : record.opcode? ≠ some .pick := by
      rw [hcode]
      simpa using hpick
    rw [Json.foldsIndex, Json.foldsExplode, decide_eq_false hfolds]
    cases code with
    | pick => exact absurd rfl hpick
    | index | createArray | createObject =>
      obtain ⟨_, -, hops⟩ := Traverse.bind_eq_ok_iff.mp hops
      obtain rfl := Except.ok.inj hops
      rfl
    | pipe =>
      obtain ⟨_, -, hops⟩ := Traverse.bind_eq_ok_iff.mp hops
      obtain ⟨_, -, hops⟩ := Traverse.bind_eq_ok_iff.mp hops
      obtain ⟨_, -, hops⟩ := Traverse.bind_eq_ok_iff.mp hops
      obtain ⟨_, -, hops⟩ := Traverse.bind_eq_ok_iff.mp hops
      obtain rfl := Except.ok.inj hops
      rfl
    | _ =>
      obtain rfl := Except.ok.inj hops
      rfl

/-- A list of records has one operation for each of them, and one for all that its own picks fold. -/
theorem length_of_ofJson_array {records : List Json} (hnames : ∀ record ∈ records, record.DistinctNames)
    {program : Program} (h : ofJson (.array records) = .ok program) :
    program.length = records.length + records.countP Json.foldsIndex + records.countP Json.foldsExplode := by
  induction records generalizing program with
  | nil =>
    obtain rfl := Except.ok.inj h
    rfl
  | cons record rest ih =>
    obtain ⟨hrecord, hrest⟩ := List.forall_mem_cons.mp hnames
    rw [ofJson_array_cons] at h
    obtain ⟨ops, hops, h⟩ := Traverse.bind_eq_ok_iff.mp h
    obtain ⟨others, hothers, rfl⟩ := Traverse.map_eq_ok_iff.mp h
    rw [List.length_append, length_of_decodeRecord hrecord hops, ih hrest hothers, List.length_cons,
      List.countP_cons, List.countP_cons, ← Json.toNat_eq_ite, ← Json.toNat_eq_ite]
    omega

/-! ## Folding is spelling -/

/-- In a document with distinct names, picks that fold an index or an explosion may be written as a pick, an index
and an explosion of their own, wherever a program stands: the document is decoded to the same program, which is
evaluated alike on every context under every limit.  And a list of records has as many operations as records, one
more for each index and one more for each explosion that a pick of the list folds; once it is unfolded, it has one
record for each operation. -/
theorem ofJson_unfold_eq (document : Json) (hnames : document.DistinctNames) (program : Program)
    (h : ofJson document = .ok program) :
    ofJson document.unfold = .ok program ∧
    (∀ unfolded, ofJson document.unfold = .ok unfolded → ∀ context options,
      unfolded.evaluate context options = program.evaluate context options) ∧
    ∀ records, document = .array records →
      program.length =
        records.length + records.countP Json.foldsIndex + records.countP Json.foldsExplode ∧
      ∃ unfolded, document.unfold = .array unfolded ∧ unfolded.length = program.length := by
  have hunfold := ofJson_unfold hnames h
  refine ⟨hunfold, ?_, ?_⟩
  · intro unfolded hunfolded context options
    obtain rfl : program = unfolded := Except.ok.inj (hunfold.symm.trans hunfolded)
    rfl
  · rintro records rfl
    have hlength := length_of_ofJson_array hnames.children h
    refine ⟨hlength, records.flatMap (Json.unfoldRecord Json.unfold), Json.unfold_eq _, ?_⟩
    rw [Json.length_flatMap_unfoldRecord, hlength]

/-- A pick that stands by itself in front of a pipe, one that is positional behind it, and one that folds both. -/
theorem ofJson_unfold_eq_pipe :
    let bare : Json := .object [("index", .integer 1), ("op", .string "pick"), ("key", .string "a"),
      ("strict", .bool false)]
    let items : Json := .array [.string "pick", .string "b", .null, .null, .bool true, .null, .null, .null,
      .array [], .array [], .null, .null]
    let both : Json := .object [("op", .string "pick"), ("key", .string "c"), ("explode", .bool true),
      ("index", .integer 0)]
    let document : Json := .array [.object [("op", .string "pipe"), ("in", bare), ("out", .array [items])], both]
    let program : Program := [.pipe [.pick "a" false, .index 1 false] [.pick "b" true, .explode true],
      .pick "c" true, .index 0 true, .explode true]
    document.DistinctNames ∧ ofJson document = .ok program ∧ ofJson document.unfold = .ok program ∧
      program.length = 2 + 1 + 1 ∧
      bare.unfold = .array [
        .object [("op", .string "pick"), ("key", .string "a"), ("strict", .bool false)],
        .object [("op", .string "index"), ("index", .integer 1), ("strict", .bool false)]] := by
  intro bare items both document program
  have hbare : bare.DistinctNames := .object (by decide) (by
    simp [Json.DistinctNames.integer, Json.DistinctNames.string, Json.DistinctNames.bool])
  have hboth : both.DistinctNames := .object (by decide) (by
    simp [Json.DistinctNames.integer, Json.DistinctNames.string, Json.DistinctNames.bool])
  have hitems : items.DistinctNames := .array (by
    simp [Json.DistinctNames.null, Json.DistinctNames.bool, Json.DistinctNames.string, Json.DistinctNames.array])
  have hout : (Json.array [items]).DistinctNames := .array (List.forall_mem_singleton.mpr hitems)
  have hpipe : (Json.object [("op", .string "pipe"), ("in", bare), ("out", .array [items])]).DistinctNames :=
    .object (by decide) (by simpa [Json.DistinctNames.string] using ⟨hbare, hout⟩)
  have hdocument : document.DistinctNames :=
    .array (List.forall_mem_cons.mpr ⟨hpipe, List.forall_mem_singleton.mpr hboth⟩)
  have hdecoded : ofJson document = .ok program := by rfl
  obtain ⟨hunfold, -, hlength⟩ := ofJson_unfold_eq document hdocument program hdecoded
  exact ⟨hdocument, hdecoded, hunfold, (hlength _ rfl).1, rfl⟩

end Program

end JsonFilter
