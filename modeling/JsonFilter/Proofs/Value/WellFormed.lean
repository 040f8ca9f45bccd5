import JsonFilter.Proofs.Binary64.Rounding
import JsonFilter.Proofs.Json.Reading
import JsonFilter.Value.Document

/-!
# Well-formed values

The values that texts stand for hold finite numbers only, and no object in them repeats a name.

* `Value.WellFormed`: these two properties, at every depth;
* `Value.wellFormed_ofJson`, `Value.wellFormed_of_parse?`: what documents and texts stand for;
* `Value.nesting_ofJson_le`, `Value.nesting_le_of_parse?`: how deep this nests.
-/

namespace JsonFilter

namespace Value

/-- The numbers of a value are finite, and the names of each object in it are distinct. -/
inductive WellFormed : Value → Prop
  | null : WellFormed null
  | bool (b : Bool) : WellFormed (bool b)
  | number {x : Binary64} (h : x.IsFinite) : WellFormed (number x)
  | string (text : String) : WellFormed (string text)
  | array {items : List Value} (h : ∀ item ∈ items, WellFormed item) : WellFormed (array items)
  | object {fields : List (String × Value)} (hkeys : (Fields.keys fields).Nodup)
      (h : ∀ field ∈ fields, WellFormed field.2) : WellFormed (object fields)

theorem ofJsonItems_eq_map (items : List Json) : ofJsonItems items = items.map ofJson := by
  induction items with
  | nil => rfl
  | cons item rest ih => rw [ofJsonItems, ih, List.map_cons]

theorem ofJsonMembers_eq_mapValues (members : List (String × Json)) :
    ofJsonMembers members = Fields.mapValues ofJson members := by
  induction members with
  | nil => rfl
  | cons member rest ih =>
    obtain ⟨key, item⟩ := member
    rw [ofJsonMembers, ih]
    rfl

/-- A document with numbers as texts can name them stands for a value as texts give it. -/
theorem wellFormed_ofJson {document : Json} (h : document.WellFormed) : (ofJson document).WellFormed := by
  induction h with
  | null => exact .null
  | bool b => exact .bool b
  | integer hn => exact .number (Binary64.isFinite_ofInt hn.1 hn.2)
  | float hx => exact .number hx
  | string text => exact .string text
  | array _ ih =>
    rw [ofJson, ofJsonItems_eq_map]
    exact .array (List.forall_mem_map.mpr ih)
  | object _ ih =>
    rw [ofJson, ofJsonMembers_eq_mapValues]
    refine .object (Fields.nodup_keys_ofList _) (Fields.forall_mem_ofList ?_)
    exact List.forall_mem_map.mpr ih

theorem wellFormed_of_parse? {text : String} {value : Value} (h : parse? text = some value) :
    value.WellFormed := by
  obtain ⟨document, hread, rfl⟩ := Option.map_eq_some_iff.mp h
  exact wellFormed_ofJson (Json.wellFormed_of_read? hread).1

/-! ## Nesting -/

theorem nestingItems_le_iff {items : List Value} {n : Nat} :
    nestingItems items ≤ n ↔ ∀ item ∈ items, item.nesting ≤ n := by
  induction items with
  | nil => simp [nestingItems]
  | cons item rest ih => rw [nestingItems, Nat.max_le, ih, List.forall_mem_cons]

theorem nestingFields_le_iff {fields : List (String × Value)} {n : Nat} :
    nestingFields fields ≤ n ↔ ∀ field ∈ fields, field.2.nesting ≤ n := by
  induction fields with
  | nil => simp [nestingFields]
  | cons field rest ih =>
    obtain ⟨key, value⟩ := field
    rw [nestingFields, Nat.max_le, ih, List.forall_mem_cons]

/-- A value nests no deeper than the document that stands for it. -/
theorem nesting_ofJson_le (document : Json) : (ofJson document).nesting ≤ document.nesting := by
  induction document using Json.induction with
  | array items ih =>
    rw [ofJson, ofJsonItems_eq_map, nesting, Json.nesting, Nat.succ_le_succ_iff, nestingItems_le_iff,
      List.forall_mem_map]
    exact fun item hitem => Nat.le_trans (ih item hitem) (Json.nesting_le_of_mem_items hitem)
  | object members ih =>
    rw [ofJson, ofJsonMembers_eq_mapValues, nesting, Json.nesting, Nat.succ_le_succ_iff,
      nestingFields_le_iff]
    -- A value that is written over by a later one counts in the document only.
    refine Fields.forall_mem_ofList (P := fun value : Value => value.nesting ≤ _) ?_
    refine List.forall_mem_map.mpr fun member hmember => ?_
    exact Nat.le_trans (ih member hmember) (Json.nesting_le_of_mem_members hmember)
  | _ => exact Nat.le_refl 0

theorem nesting_le_of_parse? {text : String} {value : Value} (h : parse? text = some value) :
    value.nesting ≤ Json.maxNesting := by
  obtain ⟨document, hread, rfl⟩ := Option.map_eq_some_iff.mp h
  exact Nat.le_trans (nesting_ofJson_le document) (Json.wellFormed_of_read? hread).2

end Value

end JsonFilter
