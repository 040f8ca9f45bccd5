import JsonFilter.Context
import JsonFilter.Proofs.Fields
import JsonFilter.Value.Access

/-!
# The leaves of values

A function of numbers and one of truth values work on the leaves of a value and leave its shape alone.
Access to the parts of a value does not look at the leaves.

* `Value.induction`: what follows for a value from its items and fields holds of every value;
* `Value.mapLeaves`: the value with other numbers and truth values at its leaves;
* `Value.field?_mapLeaves`, `Value.slice?_mapLeaves`, ...: access commutes with it;
* `Value.HasNumber`, `Value.mapLeaves_eq_self_iff`: the numbers of a value, and what leaves them alone.
-/

namespace JsonFilter

namespace Value

/-! ## The induction principle -/

/-- What follows for an array from its items and for an object from the values of its fields, and holds
of scalars, holds of every value. -/
@[elab_as_elim]
theorem induction {P : Value → Prop} (null : P null) (bool : ∀ b, P (bool b))
    (number : ∀ x, P (number x)) (string : ∀ text, P (string text))
    (array : ∀ items : List Value, (∀ item ∈ items, P item) → P (array items))
    (object : ∀ fields : List (String × Value), (∀ field ∈ fields, P field.2) →
      P (object fields)) : ∀ value, P value
  | .null => null
  | .bool b => bool b
  | .number x => number x
  | .string text => string text
  | .array items => array items fun item hitem =>
      have := List.sizeOf_lt_of_mem hitem
      induction null bool number string array object item
  | .object fields => object fields fun field hfield =>
      have := List.sizeOf_lt_of_mem hfield
      induction null bool number string array object field.2
termination_by value => sizeOf value
decreasing_by
  · simp only [Value.array.sizeOf_spec]
    omega
  · obtain ⟨key, value⟩ := field
    simp only [Value.object.sizeOf_spec, Prod.mk.sizeOf_spec] at *
    omega

/-! ## Other leaves -/

section Leaves

variable (f : Binary64 → Binary64) (g : Bool → Bool)

mutual

/-- Applies a function to every number in a value and another to every truth value. -/
def mapLeaves : Value → Value
  | null => null
  | bool b => bool (g b)
  | number x => number (f x)
  | string text => string text
  | array items => array (mapLeavesItems items)
  | object fields => object (mapLeavesFields fields)

/-- Applies the functions to the leaves of some values. -/
def mapLeavesItems : List Value → List Value
  | [] => []
  | item :: rest => mapLeaves item :: mapLeavesItems rest

/-- Applies the functions to the leaves of the values of some fields. -/
def mapLeavesFields : List (String × Value) → List (String × Value)
  | [] => []
  | (key, value) :: rest => (key, mapLeaves value) :: mapLeavesFields rest

end

theorem mapLeavesItems_eq_map (items : List Value) :
    mapLeavesItems f g items = items.map (mapLeaves f g) := by
  induction items with
  | nil => rfl
  | cons item rest ih => rw [mapLeavesItems, ih, List.map_cons]

theorem mapLeavesFields_eq_mapValues (fields : List (String × Value)) :
    mapLeavesFields f g fields = Fields.mapValues (mapLeaves f g) fields := by
  induction fields with
  | nil => rfl
  | cons field rest ih =>
    obtain ⟨key, value⟩ := field
    rw [mapLeavesFields, ih]
    rfl

@[simp] theorem mapLeaves_null : mapLeaves f g null = null := rfl

@[simp] theorem mapLeaves_bool (b : Bool) : mapLeaves f g (bool b) = bool (g b) := rfl

@[simp] theorem mapLeaves_number (x : Binary64) : mapLeaves f g (number x) = number (f x) := rfl

@[simp] theorem mapLeaves_string (text : String) : mapLeaves f g (string text) = string text := rfl

@[simp] theorem mapLeaves_array (items : List Value) :
    mapLeaves f g (array items) = array (items.map (mapLeaves f g)) := by
  rw [mapLeaves, mapLeavesItems_eq_map]

@[simp] theorem mapLeaves_object (fields : List (String × Value)) :
    mapLeaves f g (object fields) = object (Fields.mapValues (mapLeaves f g) fields) := by
  rw [mapLeaves, mapLeavesFields_eq_mapValues]

/-! ## Access -/

@[simp] theorem kind_mapLeaves (value : Value) : (value.mapLeaves f g).kind = value.kind := by
  cases value <;> simp [kind]

/-- A part that is not there is null whatever the leaves are. -/
theorem getD_map_mapLeaves (part : Option Value) :
    (part.map (mapLeaves f g)).getD null = mapLeaves f g (part.getD null) := by
  cases part <;> simp

theorem field?_mapLeaves (key : String) (value : Value) :
    (value.mapLeaves f g).field? key = (value.field? key).map (mapLeaves f g) := by
  cases value with
  | object fields =>
    simp only [mapLeaves_object, field?, Fields.get?_mapValues, getD_map_mapLeaves, Option.map_some]
  | array items =>
    have hitem : itemNamed? (items.map (mapLeaves f g)) key =
        (itemNamed? items key).map (mapLeaves f g) := by
      unfold itemNamed?
      rw [List.length_map]
      dsimp only
      split
      · exact List.getElem?_map
      · rfl
    simp only [mapLeaves_array, field?, hitem, getD_map_mapLeaves, Option.map_some]
  | _ => simp [field?]

theorem element?_mapLeaves (position : Int) (value : Value) :
    (value.mapLeaves f g).element? position = (value.element? position).map (mapLeaves f g) := by
  cases value with
  | array items =>
    simp only [mapLeaves_array, element?, List.length_map, List.getElem?_map, getD_map_mapLeaves,
      Option.map_some, Option.some.injEq]
    generalize (if position < 0 then (items.length : Int) + position else position) = place
    split
    · exact (mapLeaves_null f g).symm
    · rfl
  | _ => simp [element?]

theorem slice?_mapLeaves (start stop : Option Int) (value : Value) :
    (value.mapLeaves f g).slice? start stop = (value.slice? start stop).map (mapLeaves f g) := by
  cases value with
  | array items => simp [slice?, sliceList, List.map_take, List.map_drop]
  | _ => simp [slice?]

theorem members?_mapLeaves (value : Value) :
    (value.mapLeaves f g).members? = value.members?.map (List.map (mapLeaves f g)) := by
  cases value with
  | object fields => simp [members?, Fields.mapValues]
  | _ => simp [members?]

end Leaves

/-! ## Numbers -/

/-- A number occurs in a value, however deep. -/
inductive HasNumber (x : Binary64) : Value → Prop
  | number : HasNumber x (number x)
  | item {items : List Value} {item : Value} (mem : item ∈ items) (h : HasNumber x item) :
      HasNumber x (array items)
  | field {fields : List (String × Value)} {field : String × Value} (mem : field ∈ fields)
      (h : HasNumber x field.2) : HasNumber x (object fields)

@[simp] theorem hasNumber_number_iff {x y : Binary64} : HasNumber x (number y) ↔ x = y := by
  constructor
  · rintro ⟨⟩
    rfl
  · rintro rfl
    exact .number

@[simp] theorem hasNumber_array_iff {x : Binary64} {items : List Value} :
    HasNumber x (array items) ↔ ∃ item ∈ items, HasNumber x item := by
  constructor
  · rintro (_ | ⟨mem, h⟩)
    exact ⟨_, mem, h⟩
  · rintro ⟨item, mem, h⟩
    exact .item mem h

@[simp] theorem hasNumber_object_iff {x : Binary64} {fields : List (String × Value)} :
    HasNumber x (object fields) ↔ ∃ field ∈ fields, HasNumber x field.2 := by
  constructor
  · rintro (_ | _ | ⟨mem, h⟩)
    exact ⟨_, mem, h⟩
  · rintro ⟨field, mem, h⟩
    exact .field mem h

/-- All numbers of an array are the numbers of its items. -/
theorem forall_hasNumber_array_iff {p : Binary64 → Prop} {items : List Value} :
    (∀ x, HasNumber x (array items) → p x) ↔ ∀ item ∈ items, ∀ x, HasNumber x item → p x :=
  ⟨fun h _ mem x hx => h x (.item mem hx),
    fun h x hx => by
      obtain ⟨item, mem, hx⟩ := hasNumber_array_iff.mp hx
      exact h item mem x hx⟩

/-- All numbers of an object are the numbers in the values of its fields. -/
theorem forall_hasNumber_object_iff {p : Binary64 → Prop} {fields : List (String × Value)} :
    (∀ x, HasNumber x (object fields) → p x) ↔ ∀ field ∈ fields, ∀ x, HasNumber x field.2 → p x :=
  ⟨fun h _ mem x hx => h x (.field mem hx),
    fun h x hx => by
      obtain ⟨field, mem, hx⟩ := hasNumber_object_iff.mp hx
      exact h field mem x hx⟩

/-- Replacing leaves twice replaces them by what the replacements together give. -/
theorem mapLeaves_mapLeaves (f f' : Binary64 → Binary64) (g g' : Bool → Bool) (value : Value) :
    (value.mapLeaves f g).mapLeaves f' g' = value.mapLeaves (f' ∘ f) (g' ∘ g) := by
  induction value using Value.induction with
  | null => simp
  | bool b => simp
  | number x => simp
  | string text => simp
  | array items ih =>
    rw [mapLeaves_array, mapLeaves_array, mapLeaves_array, List.map_map]
    exact congrArg array (List.map_congr_left ih)
  | object fields ih =>
    rw [mapLeaves_object, mapLeaves_object, mapLeaves_object, Fields.mapValues_mapValues]
    exact congrArg object (Fields.mapValues_inj_left.mpr ih)

theorem mapLeaves_id (value : Value) : value.mapLeaves id id = value := by
  induction value using Value.induction with
  | array items ih =>
    rw [mapLeaves_array, List.map_congr_left ih, List.map_id']
  | object fields ih =>
    have hfields := Fields.mapValues_inj_left (g := id).mpr ih
    rw [mapLeaves_object, hfields]
    exact congrArg object (List.map_id' fields)
  | _ => simp

/-- Two functions of numbers do the same to a value exactly if they do so to all numbers in it. -/
theorem mapLeaves_inj_left {f f' : Binary64 → Binary64} {value : Value} :
    value.mapLeaves f id = value.mapLeaves f' id ↔ ∀ x, HasNumber x value → f x = f' x := by
  induction value using Value.induction with
  | null => exact ⟨fun _ => nofun, fun _ => by simp⟩
  | bool b => exact ⟨fun _ => nofun, fun _ => by simp⟩
  | number y => simp
  | string text => exact ⟨fun _ => nofun, fun _ => by simp⟩
  | array items ih =>
    rw [mapLeaves_array, mapLeaves_array, Value.array.injEq, List.map_inj_left,
      forall_hasNumber_array_iff]
    exact forall₂_congr ih
  | object fields ih =>
    rw [mapLeaves_object, mapLeaves_object, Value.object.injEq, Fields.mapValues_inj_left,
      forall_hasNumber_object_iff]
    exact forall₂_congr ih

/-- A function of numbers leaves a value alone exactly if it does so with all numbers in it. -/
theorem mapLeaves_eq_self_iff {f : Binary64 → Binary64} {value : Value} :
    value.mapLeaves f id = value ↔ ∀ x, HasNumber x value → f x = x := by
  have h : value.mapLeaves f id = value.mapLeaves id id ↔ _ := mapLeaves_inj_left
  rwa [mapLeaves_id] at h

end Value

end JsonFilter
