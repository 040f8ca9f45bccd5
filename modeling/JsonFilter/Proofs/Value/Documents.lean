import JsonFilter.Proofs.Value.RoundTrip

/-!
# Values by way of documents

A value can be written at once or by way of its document, and a text can be read at once or by way of a
document whose repeated names have been merged.  Either way gives the same.

* `Value.toJson_of_toInt?`: the document of a whole number;
* `Json.mergeKeys_object`: merging keeps the first place and the last document of each name;
* `Value.ofJson_mergeKeys`: merging repeated names does not change what a document stands for;
* `Value.parse?_eq_map_ofJson`: a text stands for what its merged document stands for;
* `Value.toJson_text_eq_compactText`: the document of a value has its text, and stands for its normal form.
-/

namespace JsonFilter

/-! ## Merged documents -/

/-- The fields that are built from built fields are those that are built from the list at once. -/
theorem Fields.ofList_ofList {α : Type} (fields : Fields α) : ofList (ofList fields) = ofList fields :=
  ofList_of_nodup (nodup_keys_ofList fields)

namespace Json

/-- Merging keeps each name of an object once, at the place where it first occurs, with the last of its
documents. -/
theorem mergeKeys_object (members : List (String × Json)) :
    (object members).mergeKeys = object (Fields.lastByName (Fields.mapValues mergeKeys members)) := by
  rw [mergeKeys, mergeKeysMembers_eq_mapValues, Fields.ofList_eq_lastByName]

theorem mergeKeys_array (items : List Json) : (array items).mergeKeys = array (items.map mergeKeys) := by
  rw [mergeKeys, mergeKeysItems_eq_map]

/-- In a document without brackets there is nothing to merge. -/
theorem mergeKeys_of_nesting_eq_zero {document : Json} (h : document.nesting = 0) :
    document.mergeKeys = document := by
  cases document with
  | array items => cases h
  | object members => cases h
  | _ => rfl

end Json

namespace Value

/-- Merging repeated names does not change what a document stands for. -/
theorem ofJson_mergeKeys (document : Json) : ofJson document.mergeKeys = ofJson document := by
  induction document using Json.induction with
  | array items ih =>
    rw [Json.mergeKeys_array, ofJson, ofJson, ofJsonItems_eq_map, ofJsonItems_eq_map, List.map_map]
    exact congrArg array (List.map_congr_left ih)
  | object members ih =>
    -- Members that are written over are left out before or after the others become values.
    have hmembers : Fields.mapValues ofJson (Fields.mapValues Json.mergeKeys members) =
        Fields.mapValues ofJson members := by
      rw [Fields.mapValues_mapValues]
      exact Fields.mapValues_inj_left.mpr ih
    rw [Json.mergeKeys, Json.mergeKeysMembers_eq_mapValues, ofJson, ofJson, ofJsonMembers_eq_mapValues,
      ofJsonMembers_eq_mapValues, ← Fields.ofList_mapValues, hmembers, Fields.ofList_ofList]
  | _ => rfl

/-- A text stands for what its document stands for once repeated names have been merged. -/
theorem parse?_eq_map_ofJson (text : String) : parse? text = (Json.parse? text).map ofJson := by
  rw [parse?, Json.parse?, Option.map_map]
  exact congrArg (Option.map · (Json.read? text)) (funext fun document => (ofJson_mergeKeys document).symm)

/-! ## Documents of values -/

/-- The document of a whole number from -2⁶³ to 2⁶³ is its integer, of which the last is brought down by one,
and it stands for the number. -/
theorem toJson_of_toInt? {x : Binary64} {n : Int} (h : x.toInt? = some n) (hlow : -Nat.pow 2 63 ≤ n)
    (hhigh : n ≤ Nat.pow 2 63) :
    toJson (number x) = .integer (min n (Nat.pow 2 63 - 1)) ∧
      ofJson (.integer (min n (Nat.pow 2 63 - 1))) = number x.unsignZero := by
  have hint64 : x.toInt64? = some (min n (Nat.pow 2 63 - 1)) := by
    rw [Binary64.toInt64?, h]
    exact if_pos ⟨hlow, hhigh⟩
  have hfinite : x.IsFinite := (Binary64.units_of_toInt? h).1
  constructor
  · rw [toJson, numberToJson, if_pos hfinite, hint64]
  · rw [ofJson, Binary64.ofInt_of_toInt64? hint64]

/-- The text of the document of a value is the compact text of the value.  If the names in the value are
distinct, its document stands for it, with null for every number that is not finite and without the signs of
zeros, and so for an equal value if all its numbers are finite.  This takes in all whole numbers from -2⁶³ to
2⁶³, of which the last is brought down by one in the document and comes back. -/
theorem toJson_text_eq_compactText (value : Value) :
    (toJson value).text = value.compactText ∧
    (value.DistinctNames → ofJson (toJson value) = value.normalize ∧
      ((∀ x, value.HasNumber x → x.IsFinite) → (ofJson (toJson value) == value) = true)) ∧
    (∀ (x : Binary64) (n : Int), x.toInt? = some n → -Nat.pow 2 63 ≤ n → n ≤ Nat.pow 2 63 →
      toJson (number x) = .integer (min n (Nat.pow 2 63 - 1)) ∧
        ofJson (.integer (min n (Nat.pow 2 63 - 1))) = number x.unsignZero) := by
  refine ⟨(compactText_eq value).symm, fun hnames => ?_, fun x n => toJson_of_toInt?⟩
  have hvalue := ofJson_toJson_eq_normalize hnames
  refine ⟨hvalue, fun hfinite => ?_⟩
  rw [hvalue]
  exact beq_normalize (hnames.wellFormed hfinite)

/-- The greatest number that is written as an integer, beside a zero in an object. -/
theorem toJson_text_eq_compactText_bounds :
    (ofJson (toJson (object [("a", number (.ofInt (Nat.pow 2 63))), ("b", number (.zero true))])) ==
      object [("a", number (.ofInt (Nat.pow 2 63))), ("b", number (.zero true))]) = true ∧
    toJson (number (.ofInt (Nat.pow 2 63))) = .integer 9223372036854775807 := by
  have hwell : WellFormed
      (object [("a", number (.ofInt (Nat.pow 2 63))), ("b", number (.zero true))]) := by
    refine .object (by decide : ["a", "b"].Nodup) (List.forall_mem_cons.mpr ⟨.number ?_,
      List.forall_mem_singleton.mpr (.number (Binary64.isFinite_of_isZero (Binary64.isZero_zero true)))⟩)
    exact Binary64.isFinite_ofInt (by decide) (by decide)
  constructor
  · exact ((toJson_text_eq_compactText _).2.1 hwell.distinctNames).2 fun _ => hwell.isFinite
  · exact ((toJson_text_eq_compactText null).2.2 _ (Nat.pow 2 63) (by decide +kernel) (by decide)
      (by decide)).1

end Value

end JsonFilter
