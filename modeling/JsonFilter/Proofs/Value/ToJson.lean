import JsonFilter.Proofs.Json.RoundTrip
import JsonFilter.Proofs.Value.Normal
import JsonFilter.Value.Printer

/-!
# Values as documents

The compact text of a value is the text of its document, and the document stands for the normal form of the
value, as it has neither the signs of zeros nor numbers that are not finite.

* `Value.ofJson_toJson_eq_normalize`: the document of a value stands for its normal form;
* `Value.writer_mapLeaves`: writers that do not tell two numbers apart;
* `Value.compactText_eq`: the text of a value is that of its document;
* `Value.compactText_normalize`, `Value.compactText_unsignZeros`: the text shows no more than this.
-/

namespace JsonFilter

namespace Value

/-! ## Numbers -/

theorem isNumber_of_toInt64? {x : Binary64} {n : Int} (h : x.toInt64? = some n) :
    Json.IsNumber (.integer n) := by
  obtain ⟨m, -, h⟩ := Option.bind_eq_some_iff.mp h
  obtain ⟨⟨hlow, hhigh⟩, h⟩ := Option.ite_none_right_eq_some.mp h
  obtain rfl := Option.some.inj h
  simp only [Json.IsNumber, Nat.pow_eq] at hlow hhigh ⊢
  omega

/-- The document of a number is nothing, or a number as texts can name it. -/
theorem wellFormed_numberToJson (x : Binary64) : (numberToJson x).WellFormed := by
  unfold numberToJson
  split
  · next hx =>
    split
    · next n hn => exact .integer (isNumber_of_toInt64? hn)
    · exact .float hx
  · exact .null

theorem compactNumber_eq (x : Binary64) (rest : List Char) :
    compactNumber x ++ rest = (numberToJson x).writer rest := by
  unfold compactNumber numberToJson
  by_cases hx : x.IsFinite
  · rw [if_pos hx, if_pos hx]
    cases x.toInt64? with
    | some n => rfl
    | none => exact congrArg (· ++ rest) (if_pos hx).symm
  · rw [if_neg hx, if_neg hx]
    rfl

/-- The document of a finite number stands for it, but for the sign of a zero. -/
theorem ofJson_numberToJson {x : Binary64} (hx : x.IsFinite) :
    ofJson (numberToJson x) = number x.unsignZero := by
  unfold numberToJson
  rw [if_pos hx]
  cases hn : x.toInt64? with
  | some n =>
    show number (.ofInt n) = _
    rw [Binary64.ofInt_of_toInt64? hn]
  | none =>
    -- A zero is whole, so this number is none and has no sign to lose.
    rw [Binary64.unsignZero_of_not_isZero (Binary64.not_isZero_of_toInt64? hn)]
    rfl

theorem numberToJson_unsignZero {x : Binary64} (hx : x.IsFinite) :
    numberToJson x.unsignZero = numberToJson x := by
  by_cases h : x.IsZero
  · have hzero := Binary64.isZero_unsignZero_iff.mpr h
    unfold numberToJson
    rw [if_pos (Binary64.isFinite_unsignZero hx), if_pos hx, Binary64.toInt64?_of_isZero hzero,
      Binary64.toInt64?_of_isZero h]
  · rw [Binary64.unsignZero_of_not_isZero h]

theorem compactNumber_of_isZero {x : Binary64} (h : x.IsZero) : compactNumber x = Text.ofInt 0 := by
  unfold compactNumber
  rw [if_pos (Binary64.isFinite_of_isZero h), Binary64.toInt64?_of_isZero h]

/-- The text of a number does not show the sign of a zero. -/
theorem compactNumber_unsignZero (x : Binary64) : compactNumber x.unsignZero = compactNumber x := by
  by_cases h : x.IsZero
  · rw [compactNumber_of_isZero h, compactNumber_of_isZero (Binary64.isZero_unsignZero_iff.mpr h)]
  · rw [Binary64.unsignZero_of_not_isZero h]

/-! ## Documents of values -/

theorem toJsonItems_eq_map (items : List Value) : toJsonItems items = items.map toJson := by
  induction items with
  | nil => rfl
  | cons item rest ih => rw [toJsonItems, ih, List.map_cons]

theorem toJsonFields_eq_mapValues (fields : List (String × Value)) :
    toJsonFields fields = Fields.mapValues toJson fields := by
  induction fields with
  | nil => rfl
  | cons field rest ih =>
    obtain ⟨key, value⟩ := field
    rw [toJsonFields, ih]
    rfl

theorem nesting_numberToJson (x : Binary64) : (numberToJson x).nesting = 0 := by
  unfold numberToJson
  split
  · split <;> rfl
  · rfl

/-- A document nests as deep as its value. -/
theorem nesting_toJson (value : Value) : (toJson value).nesting = value.nesting := by
  have hitems : ∀ items : List Value, (∀ item ∈ items, (toJson item).nesting = item.nesting) →
      Json.nestingItems (items.map toJson) = nestingItems items := by
    intro items h
    induction items with
    | nil => rfl
    | cons item rest ih =>
      obtain ⟨hitem, hrest⟩ := List.forall_mem_cons.mp h
      rw [List.map_cons, Json.nestingItems, nestingItems, hitem, ih hrest]
  have hfields : ∀ fields : List (String × Value),
      (∀ field ∈ fields, (toJson field.2).nesting = field.2.nesting) →
      Json.nestingMembers (Fields.mapValues toJson fields) = nestingFields fields := by
    intro fields h
    induction fields with
    | nil => rfl
    | cons field rest ih =>
      obtain ⟨key, item⟩ := field
      obtain ⟨hitem, hrest⟩ := List.forall_mem_cons.mp h
      rw [Fields.mapValues_cons, Json.nestingMembers, nestingFields, hitem, ih hrest]
  induction value using Value.induction with
  | null => rfl
  | bool b => rfl
  | number x => exact nesting_numberToJson x
  | string text => rfl
  | array items ih => rw [toJson, toJsonItems_eq_map, Json.nesting, nesting, hitems items ih]
  | object fields ih => rw [toJson, toJsonFields_eq_mapValues, Json.nesting, nesting, hfields fields ih]

/-- The document of a value holds no other numbers than texts can name. -/
theorem wellFormed_toJson (value : Value) : (toJson value).WellFormed := by
  induction value using Value.induction with
  | null => exact .null
  | bool b => exact .bool b
  | number x => exact wellFormed_numberToJson x
  | string text => exact .string text
  | array items ih =>
    rw [toJson, toJsonItems_eq_map]
    exact .array (List.forall_mem_map.mpr ih)
  | object fields ih =>
    rw [toJson, toJsonFields_eq_mapValues]
    exact .object (List.forall_mem_map.mpr ih)

/-- The document of a value stands for its normal form. -/
theorem ofJson_toJson_eq_normalize {value : Value} (h : value.DistinctNames) :
    ofJson (toJson value) = value.normalize := by
  induction h with
  | null => rfl
  | bool b => rfl
  | number x =>
    rw [toJson, normalize, normalizeNumber]
    split
    · next hx => exact ofJson_numberToJson hx
    · next hx => rw [numberToJson, if_neg hx, ofJson]
  | string text => rfl
  | array _ ih =>
    rw [toJson, toJsonItems_eq_map, ofJson, ofJsonItems_eq_map, List.map_map, normalize_array]
    exact congrArg array (List.map_congr_left ih)
  | object hkeys _ ih =>
    rw [toJson, toJsonFields_eq_mapValues, ofJson, ofJsonMembers_eq_mapValues,
      Fields.mapValues_mapValues, normalize_object,
      Fields.ofList_of_nodup (by rwa [Fields.keys_mapValues])]
    exact congrArg object (Fields.mapValues_inj_left.mpr ih)

/-- The document of a well-formed value stands for it, but for the signs of zeros. -/
theorem ofJson_toJson {value : Value} (h : value.WellFormed) :
    ofJson (toJson value) = value.unsignZeros := by
  rw [ofJson_toJson_eq_normalize h.distinctNames, normalize_eq_unsignZeros fun _ => h.isFinite]

/-- A value has the document of its normal form. -/
theorem toJson_normalize (value : Value) : toJson value.normalize = toJson value := by
  induction value using Value.induction with
  | null => rfl
  | bool b => rfl
  | number x =>
    rw [normalize, normalizeNumber]
    split
    · next hx => exact numberToJson_unsignZero hx
    · next hx => exact (if_neg hx).symm
  | string text => rfl
  | array items ih =>
    rw [normalize_array, toJson, toJson, toJsonItems_eq_map, toJsonItems_eq_map, List.map_map]
    exact congrArg Json.array (List.map_congr_left ih)
  | object fields ih =>
    rw [normalize_object, toJson, toJson, toJsonFields_eq_mapValues, toJsonFields_eq_mapValues,
      Fields.mapValues_mapValues]
    exact congrArg Json.object (Fields.mapValues_inj_left.mpr ih)

/-! ## Texts of values -/

theorem itemWriters_eq_map (style : Style) (items : List Value) :
    itemWriters style items = items.map (writer style) := by
  induction items with
  | nil => rfl
  | cons item rest ih => rw [itemWriters, ih, List.map_cons]

/-- The writer of a field. -/
def fieldWriter (style : Style) (field : String × Value) : Text.Writer :=
  Text.named (Text.quote style.letters field.1.toList) (writer style field.2)

theorem fieldWriters_eq_map (style : Style) (fields : List (String × Value)) :
    fieldWriters style fields = fields.map (fieldWriter style) := by
  induction fields with
  | nil => rfl
  | cons field rest ih =>
    obtain ⟨key, value⟩ := field
    rw [fieldWriters, ih]
    rfl

/-- The writer of a value is that of its document. -/
theorem writer_toJson (value : Value) : value.writer .compact = (toJson value).writer := by
  induction value using Value.induction with
  | null => rfl
  | bool b => rfl
  | number x => exact funext (compactNumber_eq x)
  | string text => rfl
  | array items ih =>
    rw [toJson, toJsonItems_eq_map, writer, itemWriters_eq_map, Json.writer, Json.itemWriters_eq_map,
      List.map_map]
    exact congrArg Text.bracketed (List.map_congr_left ih)
  | object fields ih =>
    rw [toJson, toJsonFields_eq_mapValues, writer, fieldWriters_eq_map, Json.writer,
      Json.memberWriters_eq_map, Fields.mapValues, List.map_map]
    refine congrArg Text.braced (List.map_congr_left fun field hfield => ?_)
    exact congrArg (Text.named _) (ih field hfield)

/-- A writer that does not tell two numbers apart does not tell values with one in the other's place. -/
theorem writer_mapLeaves {style : Style} {f : Binary64 → Binary64}
    (hf : ∀ x, style.number (f x) = style.number x) (value : Value) :
    (value.mapLeaves f id).writer style = value.writer style := by
  induction value using Value.induction with
  | null => rw [mapLeaves_null]
  | bool b => rw [mapLeaves_bool, id]
  | number x => rw [mapLeaves_number, writer, writer, hf]
  | string text => rw [mapLeaves_string]
  | array items ih =>
    rw [mapLeaves_array, writer, writer, itemWriters_eq_map, itemWriters_eq_map, List.map_map]
    exact congrArg Text.bracketed (List.map_congr_left ih)
  | object fields ih =>
    rw [mapLeaves_object, writer, writer, fieldWriters_eq_map, fieldWriters_eq_map,
      Fields.mapValues, List.map_map]
    refine congrArg Text.braced (List.map_congr_left fun field hfield => ?_)
    exact congrArg (Text.named _) (ih field hfield)

/-- The text of a value is that of its document. -/
theorem compactText_eq (value : Value) : value.compactText = (toJson value).text := by
  rw [compactText, writer_toJson]
  rfl

/-- The text of a value does not show the signs of zeros. -/
theorem compactText_unsignZeros (value : Value) :
    value.unsignZeros.compactText = value.compactText := by
  have hwriter : value.unsignZeros.writer .compact = value.writer .compact :=
    writer_mapLeaves compactNumber_unsignZero value
  rw [compactText, compactText, hwriter]

/-- The text of a value shows no more than its normal form. -/
theorem compactText_normalize (value : Value) : value.normalize.compactText = value.compactText := by
  rw [compactText_eq, toJson_normalize, compactText_eq]

end Value

end JsonFilter
