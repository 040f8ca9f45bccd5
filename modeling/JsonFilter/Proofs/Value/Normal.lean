import JsonFilter.Proofs.Value.Equality
import JsonFilter.Proofs.Value.WellFormed

/-!
# What texts show of values

The text of a value shows neither the sign of a zero nor a number that is not finite, for which it has null.
A value without these is in normal form.

* `Value.DistinctNames`: no object in a value repeats a name;
* `Value.wellFormed_iff`: well-formed values are those with distinct names and finite numbers;
* `Value.normalize`: the normal form of a value;
* `Value.normalize_eq_unsignZeros`, `Value.beq_normalize`: a value with finite numbers equals its normal form.
-/

namespace JsonFilter

theorem Binary64.isFinite_unsignZero {x : Binary64} (h : x.IsFinite) : x.unsignZero.IsFinite := by
  by_cases hzero : x.IsZero
  · rw [unsignZero_of_isZero hzero]
    exact isFinite_of_isZero (isZero_zero false)
  · rwa [unsignZero_of_not_isZero hzero]

namespace Value

/-! ## Distinct names -/

/-- The names of each object in a value are distinct. -/
inductive DistinctNames : Value → Prop
  | null : DistinctNames null
  | bool (b : Bool) : DistinctNames (bool b)
  | number (x : Binary64) : DistinctNames (number x)
  | string (text : String) : DistinctNames (string text)
  | array {items : List Value} (h : ∀ item ∈ items, DistinctNames item) : DistinctNames (array items)
  | object {fields : List (String × Value)} (hkeys : (Fields.keys fields).Nodup)
      (h : ∀ field ∈ fields, DistinctNames field.2) : DistinctNames (object fields)

theorem WellFormed.distinctNames {value : Value} (h : value.WellFormed) : value.DistinctNames := by
  induction h with
  | null => exact .null
  | bool b => exact .bool b
  | number _ => exact .number _
  | string text => exact .string text
  | array _ ih => exact .array ih
  | object hkeys _ ih => exact .object hkeys ih

/-- A number in a well-formed value is finite. -/
theorem WellFormed.isFinite {value : Value} (h : value.WellFormed) {x : Binary64}
    (hx : value.HasNumber x) : x.IsFinite := by
  induction hx with
  | number =>
    cases h with
    | number hfinite => exact hfinite
  | item mem _ ih =>
    cases h with
    | array hitems => exact ih (hitems _ mem)
  | field mem _ ih =>
    cases h with
    | object _ hfields => exact ih (hfields _ mem)

theorem DistinctNames.wellFormed {value : Value} (h : value.DistinctNames)
    (hfinite : ∀ x, value.HasNumber x → x.IsFinite) : value.WellFormed := by
  induction h with
  | null => exact .null
  | bool b => exact .bool b
  | number x => exact .number (hfinite x .number)
  | string text => exact .string text
  | array _ ih =>
    exact .array fun item hitem => ih item hitem (forall_hasNumber_array_iff.mp hfinite item hitem)
  | object hkeys _ ih =>
    exact .object hkeys fun field hfield =>
      ih field hfield (forall_hasNumber_object_iff.mp hfinite field hfield)

/-- A value is well-formed exactly if its names are distinct and its numbers are finite. -/
theorem wellFormed_iff {value : Value} :
    value.WellFormed ↔ value.DistinctNames ∧ ∀ x, value.HasNumber x → x.IsFinite :=
  ⟨fun h => ⟨h.distinctNames, fun _ => h.isFinite⟩, fun ⟨hnames, hfinite⟩ => hnames.wellFormed hfinite⟩

theorem WellFormed.nanFree {value : Value} (h : value.WellFormed) : value.NaNFree :=
  fun _ hx hnan => h.isFinite hx hnan.1

/-! ## Normal forms -/

/-- What the text of a number shows: null if it is not finite, and otherwise the number without the sign of
a zero. -/
def normalizeNumber (x : Binary64) : Value :=
  if x.IsFinite then number x.unsignZero else null

mutual

/-- The value with null for every number that is not finite, and without the signs of zeros. -/
def normalize : Value → Value
  | null => null
  | bool b => bool b
  | number x => normalizeNumber x
  | string text => string text
  | array items => array (normalizeItems items)
  | object fields => object (normalizeFields fields)

/-- The normal forms of some values. -/
def normalizeItems : List Value → List Value
  | [] => []
  | item :: rest => normalize item :: normalizeItems rest

/-- The fields with the normal forms of their values. -/
def normalizeFields : List (String × Value) → List (String × Value)
  | [] => []
  | (key, value) :: rest => (key, normalize value) :: normalizeFields rest

end

theorem normalizeItems_eq_map (items : List Value) : normalizeItems items = items.map normalize := by
  induction items with
  | nil => rfl
  | cons item rest ih => rw [normalizeItems, ih, List.map_cons]

theorem normalizeFields_eq_mapValues (fields : List (String × Value)) :
    normalizeFields fields = Fields.mapValues normalize fields := by
  induction fields with
  | nil => rfl
  | cons field rest ih =>
    obtain ⟨key, value⟩ := field
    rw [normalizeFields, ih]
    rfl

theorem normalize_array (items : List Value) :
    normalize (array items) = array (items.map normalize) := by
  rw [normalize, normalizeItems_eq_map]

theorem normalize_object (fields : List (String × Value)) :
    normalize (object fields) = object (Fields.mapValues normalize fields) := by
  rw [normalize, normalizeFields_eq_mapValues]

/-- The numbers of a normal form are finite. -/
theorem wellFormed_normalize {value : Value} (h : value.DistinctNames) : value.normalize.WellFormed := by
  induction h with
  | null => exact .null
  | bool b => exact .bool b
  | number x =>
    rw [normalize, normalizeNumber]
    split
    · next hx => exact .number (Binary64.isFinite_unsignZero hx)
    · exact .null
  | string text => exact .string text
  | array _ ih =>
    rw [normalize_array]
    exact .array (List.forall_mem_map.mpr ih)
  | object hkeys _ ih =>
    rw [normalize_object]
    exact .object (by rwa [Fields.keys_mapValues]) (List.forall_mem_map.mpr ih)

/-- The normal form of a value with finite numbers differs from it in the signs of zeros only. -/
theorem normalize_eq_unsignZeros {value : Value} (h : ∀ x, value.HasNumber x → x.IsFinite) :
    value.normalize = value.unsignZeros := by
  induction value using Value.induction with
  | null => rfl
  | bool b => rfl
  | number x => exact if_pos (h x .number)
  | string text => rfl
  | array items ih =>
    rw [normalize_array, unsignZeros, mapLeaves_array]
    exact congrArg array (List.map_congr_left fun item hitem =>
      ih item hitem (forall_hasNumber_array_iff.mp h item hitem))
  | object fields ih =>
    rw [normalize_object, unsignZeros, mapLeaves_object]
    exact congrArg object (Fields.mapValues_inj_left.mpr fun field hfield =>
      ih field hfield (forall_hasNumber_object_iff.mp h field hfield))

/-- A well-formed value equals its normal form. -/
theorem beq_normalize {value : Value} (h : value.WellFormed) : beq value.normalize value = true := by
  rw [beq_iff, normalize_eq_unsignZeros fun _ => h.isFinite, unsignZeros_unsignZeros]
  have hfree := (wellFormed_normalize h.distinctNames).nanFree
  rw [normalize_eq_unsignZeros fun _ => h.isFinite] at hfree
  exact ⟨hfree, rfl⟩

end Value

end JsonFilter
