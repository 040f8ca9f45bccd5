import JsonFilter.Program.Decode
import JsonFilter.Traverse

/-!
# The parts of records

A record holds items and members of its document, so it keeps what these inherit.  In particular the
programs inside a record nest less deep than the document of the record.  Hence the nesting of a document
bounds the decoding of it, and decoding satisfies its equations:

* `Record.partsHave_of_ofJson`: what the documents in a record inherit from its document;
* `Program.ofJson_array`: a list of records is decoded record by record;
* `Program.ofJson_object`: an object is decoded as a record;
* `Program.ofJson_of_nesting_eq_zero`: no other document is a program.
-/

namespace JsonFilter

namespace Json

/-! ## Nesting of items and members -/

theorem nesting_le_of_mem_items {item : Json} {items : List Json} (h : item ∈ items) :
    item.nesting ≤ nestingItems items := by
  induction items with
  | nil => simp at h
  | cons first rest ih =>
    rw [nestingItems]
    rcases List.mem_cons.1 h with rfl | h
    · exact Nat.le_max_left ..
    · exact Nat.le_trans (ih h) (Nat.le_max_right ..)

theorem nesting_le_of_mem_members {member : String × Json} {members : List (String × Json)}
    (h : member ∈ members) : member.2.nesting ≤ nestingMembers members := by
  induction members with
  | nil => simp at h
  | cons first rest ih =>
    rw [nestingMembers]
    rcases List.mem_cons.1 h with rfl | h
    · exact Nat.le_max_left ..
    · exact Nat.le_trans (ih h) (Nat.le_max_right ..)

/-- An item of an array nests less deep than the array. -/
theorem nesting_lt_of_mem_items {item : Json} {items : List Json} (h : item ∈ items) :
    item.nesting < (array items).nesting := by
  rw [nesting]
  exact Nat.lt_succ_of_le (nesting_le_of_mem_items h)

/-- A member of an object nests less deep than the object. -/
theorem nesting_lt_of_mem_members {member : String × Json} {members : List (String × Json)}
    (h : member ∈ members) : member.2.nesting < (object members).nesting := by
  rw [nesting]
  exact Nat.lt_succ_of_le (nesting_le_of_mem_members h)

theorem asList_eq_ok_iff {document : Json} {items : List Json} :
    document.asList = .ok items ↔ document = array items := by
  cases document <;> simp [asList]

/-! ## Items and members -/

/-- A property of the items of an array and of the members of an object. -/
def ChildrenHave (P : Json → Prop) : Json → Prop
  | array items => ∀ item ∈ items, P item
  | object members => ∀ member ∈ members, P member.2
  | _ => True

theorem ChildrenHave.mono {P Q : Json → Prop} (h : ∀ child, P child → Q child) {document : Json}
    (hchildren : document.ChildrenHave P) : document.ChildrenHave Q := by
  cases document with
  | array items => exact fun item hitem => h item (hchildren item hitem)
  | object members => exact fun member hmember => h member.2 (hchildren member hmember)
  | _ => trivial

/-- The items and members of a document nest less deep than the document. -/
theorem childrenHave_nesting_lt (document : Json) :
    document.ChildrenHave fun child => child.nesting < document.nesting := by
  cases document with
  | array items => exact fun item => nesting_lt_of_mem_items
  | object members => exact fun member => nesting_lt_of_mem_members
  | _ => trivial

/-- The program of an entry is an item or a member of the entry. -/
theorem of_asEntry {P : Json → Prop} {document : Json} {entry : String × Json}
    (h : document.asEntry = .ok entry) (hchildren : document.ChildrenHave P) : P entry.2 := by
  match document, h with
  | .object members, h =>
    obtain ⟨draft, hdraft, h⟩ := Traverse.bind_eq_ok_iff.1 h
    have bound : ∀ value ∈ draft.value?, P value := by
      refine Traverse.foldlM_invariant
        (fun draft : EntryDraft => ∀ value ∈ draft.value?, P value) ?_ (by simp) hdraft
      rintro draft ⟨name, json⟩ draft' hm hd hs
      unfold EntryDraft.setNamed at hs
      split at hs
      · obtain ⟨_, _, hs⟩ := Traverse.bind_eq_ok_iff.1 hs
        obtain rfl := Except.ok.inj hs
        exact hd
      · next heq =>
        obtain rfl := Except.ok.inj hs
        obtain rfl := (Prod.mk.inj heq).2
        rintro value ⟨⟩
        exact hchildren _ hm
      · obtain rfl := Except.ok.inj hs
        exact hd
    unfold EntryDraft.finish at h
    split at h
    · cases h
    · cases h
    · next key value hk hv =>
      obtain rfl := Except.ok.inj h
      exact bound value (by simp [hv])
  | .array [], h => cases h
  | .array [key], h =>
    obtain ⟨_, _, h⟩ := Traverse.bind_eq_ok_iff.1 h
    cases h
  | .array (key :: value :: rest), h =>
    obtain ⟨_, _, h⟩ := Traverse.bind_eq_ok_iff.1 h
    split at h
    · obtain rfl := Except.ok.inj h
      exact hchildren value (by simp)
    · cases h

end Json

namespace Record

/-! ## The documents in a record -/

/-- A property of all documents that a record holds, as its value or in the place of a program. -/
structure PartsHave (P : Json → Prop) (record : Record) : Prop where
  value : ∀ json ∈ record.value?, P json
  values : ∀ json ∈ record.values, P json
  entries : ∀ entry ∈ record.entries, P entry.2
  source : ∀ json ∈ record.source?, P json
  target : ∀ json ∈ record.target?, P json

section PartsHave

variable {P : Json → Prop}

theorem partsHave_empty : ({} : Record).PartsHave P :=
  ⟨by simp, by simp, by simp, by simp, by simp⟩

theorem of_orNull {json : Json} {part : Option Json} (hjson : P json)
    (h : Json.orNull .ok json = .ok part) : ∀ p ∈ part, P p := by
  unfold Json.orNull at h
  split at h
  · obtain rfl := Except.ok.inj h
    simp
  · obtain rfl := Except.ok.inj h
    rintro p ⟨⟩
    exact hjson

/-- Reading a field keeps a property that the field has, if items and members inherit it. -/
theorem PartsHave.set (hP : ∀ {json : Json}, P json → json.ChildrenHave P) {record result : Record}
    {field : RecordField} {json : Json} (parts : record.PartsHave P) (hjson : P json)
    (h : record.set field json = .ok result) : result.PartsHave P := by
  cases field <;> obtain ⟨part, hpart, h⟩ := Traverse.bind_eq_ok_iff.1 h
  case value =>
    obtain rfl := Except.ok.inj h
    exact { parts with value := of_orNull hjson hpart }
  case values =>
    obtain rfl := Except.ok.inj h
    obtain rfl := Json.asList_eq_ok_iff.1 hpart
    exact { parts with values := hP hjson }
  case entries =>
    obtain ⟨entries, hentries, h⟩ := Traverse.bind_eq_ok_iff.1 h
    obtain rfl := Except.ok.inj h
    obtain rfl := Json.asList_eq_ok_iff.1 hpart
    refine { parts with entries := fun entry he => ?_ }
    obtain ⟨item, hitem, hi⟩ := Traverse.exists_of_mem_mapM hentries he
    exact Json.of_asEntry hi (hP (hP hjson item hitem))
  case source =>
    obtain rfl := Except.ok.inj h
    exact { parts with source := of_orNull hjson hpart }
  case target =>
    obtain rfl := Except.ok.inj h
    exact { parts with target := of_orNull hjson hpart }
  all_goals
    obtain rfl := Except.ok.inj h
    exact { parts with }

/-- The documents in a record have a property that the items and members of its document have and hand on. -/
theorem partsHave_of_ofJson (hP : ∀ {json : Json}, P json → json.ChildrenHave P) {document : Json}
    {record : Record} (h : Record.ofJson document = .ok record) (hchildren : document.ChildrenHave P) :
    record.PartsHave P := by
  match document, h with
  | .object members, h =>
    refine Traverse.foldlM_invariant (PartsHave P) ?_ partsHave_empty h
    intro record member result hm parts hs
    unfold setNamed at hs
    split at hs
    · exact parts.set hP (hchildren member hm) hs
    · exact Except.ok.inj hs ▸ parts
  | .array items, h =>
    obtain ⟨read, hread, h⟩ := Traverse.bind_eq_ok_iff.1 h
    have parts : read.PartsHave P := by
      refine Traverse.foldlM_invariant (PartsHave P) ?_ partsHave_empty hread
      intro record pair result hm parts hs
      exact parts.set hP (hchildren pair.2 (List.of_mem_zip hm).2) hs
    split at h
    · cases h
    · split at h
      · cases h
      · exact Except.ok.inj h ▸ parts

end PartsHave

/-! ## Nesting of the parts of a record -/

/-- Every document that a record holds in the place of a program nests less deep than `n`. -/
structure PartsBelow (record : Record) (n : Nat) : Prop where
  values : ∀ json ∈ record.values, json.nesting < n
  entries : ∀ entry ∈ record.entries, entry.2.nesting < n
  source : ∀ json ∈ record.source?, json.nesting < n
  target : ∀ json ∈ record.target?, json.nesting < n

/-- The parts of a record nest less deep than its document. -/
theorem partsBelow_of_ofJson {document : Json} {record : Record}
    (h : Record.ofJson document = .ok record) : record.PartsBelow document.nesting := by
  have inherits : ∀ {json : Json}, json.nesting < document.nesting →
      json.ChildrenHave fun child => child.nesting < document.nesting :=
    fun {json} hjson => json.childrenHave_nesting_lt.mono fun child hchild => Nat.lt_trans hchild hjson
  have parts := partsHave_of_ofJson inherits h document.childrenHave_nesting_lt
  exact ⟨parts.values, parts.entries, parts.source, parts.target⟩

end Record

namespace Program

/-! ## The equations of decoding -/

/-- The operations of a record depend on the decoder only through the parts of the record. -/
theorem opsOfRecord_congr {f g : Decoder} {record : Record} {n : Nat} (below : record.PartsBelow n)
    (h : ∀ json, json.nesting < n → f json = g json) (code : Opcode) :
    opsOfRecord f record code = opsOfRecord g record code := by
  cases code <;> simp only [opsOfRecord]
  case createArray => rw [Traverse.mapM_congr fun json hj => h json (below.values json hj)]
  case createObject =>
    rw [Traverse.mapM_congr fun entry he => by rw [h _ (below.entries entry he)]]
  case pipe =>
    cases hs : record.source? with
    | none => rfl
    | some source =>
      cases ht : record.target? with
      | none => rfl
      | some target =>
        simp only [required, Traverse.ok_bind, h source (below.source source hs),
          h target (below.target target ht)]

/-- Decoding a record reads only programs that nest less deep than its document. -/
theorem decodeRecord_congr {f g : Decoder} {document : Json}
    (h : ∀ json, json.nesting < document.nesting → f json = g json) :
    decodeRecord f document = decodeRecord g document := by
  unfold decodeRecord
  cases hr : Record.ofJson document with
  | error fault => rfl
  | ok record =>
    have ops := opsOfRecord_congr (Record.partsBelow_of_ofJson hr) h
    simp only [Traverse.mapError_ok, Traverse.ok_bind, ops]

/-- Decoding a document reads only programs that nest less deep. -/
theorem decodeWith_congr {f g : Decoder} {document : Json}
    (h : ∀ json, json.nesting < document.nesting → f json = g json) :
    decodeWith f document = decodeWith g document := by
  cases document with
  | array records =>
    simp only [decodeWith]
    rw [Traverse.mapM_congr fun record hr => decodeRecord_congr fun json hj =>
      h json (Nat.lt_trans hj (Json.nesting_lt_of_mem_items hr))]
  | object members => exact decodeRecord_congr h
  | _ => rfl

/-- A depth that the document does not exceed does not matter. -/
theorem decodeNested_eq {depth : Nat} {document : Json} (h : document.nesting ≤ depth) :
    decodeNested depth document = ofJson document := by
  suffices key : ∀ n m (document : Json), document.nesting ≤ n → document.nesting ≤ m →
      decodeNested n document = decodeNested m document from key _ _ _ h (Nat.le_refl _)
  clear h document depth
  intro n
  induction n with
  | zero =>
    intro m document hn _
    cases m with
    | zero => rfl
    | succ m => cases document <;> simp_all [decodeNested, decodeWith, Json.nesting]
  | succ n ih =>
    intro m document hn hm
    cases m with
    | zero => cases document <;> simp_all [decodeNested, decodeWith, Json.nesting]
    | succ m =>
      exact decodeWith_congr fun json hj =>
        ih m json (by omega) (by omega)

/-- Decoding a document decodes the programs inside its records in the same way. -/
theorem ofJson_eq_decodeWith (document : Json) : ofJson document = decodeWith ofJson document := by
  rw [← decodeNested_eq (Nat.le_succ document.nesting)]
  exact decodeWith_congr fun json hj => decodeNested_eq (Nat.le_of_lt hj)

/-- A list of records is decoded record by record. -/
theorem ofJson_array (records : List Json) :
    ofJson (.array records) = List.flatten <$> records.mapM (decodeRecord ofJson) := by
  rw [ofJson_eq_decodeWith, decodeWith, ← bind_pure_comp]

/-- An object is decoded as a record. -/
theorem ofJson_object (members : List (String × Json)) :
    ofJson (.object members) = decodeRecord ofJson (.object members) :=
  ofJson_eq_decodeWith _

/-- A document without brackets is no program. -/
theorem ofJson_of_nesting_eq_zero {document : Json} (h : document.nesting = 0) :
    ofJson document = .error (.malformed document.kind) := by
  rw [ofJson, h, decodeNested]

end Program

end JsonFilter
