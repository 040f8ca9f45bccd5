import JsonFilter.Program.Parts
import JsonFilter.Proofs.Fields

/-!
# Induction over documents

A document is a scalar, a list of documents or a list of named documents.  What follows for it from the
documents inside it holds of every document.

* `Json.induction`: the principle, with one case for each form of a document;
* `Json.nesting_array_le_iff`, `Json.nesting_object_le_iff`: nesting bounds the documents inside;
* `Json.nesting_mergeKeys_le`: merging repeated names does not make a document nest deeper;
* `Json.DistinctNames`: no object repeats a name, as it is once they have been merged.
-/

namespace JsonFilter.Json

/-! ## The induction principle -/

/-- What follows for an array from its items and for an object from its members, and holds of scalars,
holds of every document. -/
@[elab_as_elim]
theorem induction {P : Json → Prop} (null : P null) (bool : ∀ b, P (bool b))
    (integer : ∀ n, P (integer n)) (float : ∀ x, P (float x)) (string : ∀ text, P (string text))
    (array : ∀ items : List Json, (∀ item ∈ items, P item) → P (array items))
    (object : ∀ members : List (String × Json), (∀ member ∈ members, P member.2) →
      P (object members)) : ∀ document, P document
  | .null => null
  | .bool b => bool b
  | .integer n => integer n
  | .float x => float x
  | .string text => string text
  | .array items => array items fun item hitem =>
      have := List.sizeOf_lt_of_mem hitem
      induction null bool integer float string array object item
  | .object members => object members fun member hmember =>
      have := List.sizeOf_lt_of_mem hmember
      induction null bool integer float string array object member.2
termination_by document => sizeOf document
decreasing_by
  · simp only [Json.array.sizeOf_spec]
    omega
  · obtain ⟨key, value⟩ := member
    simp only [Json.object.sizeOf_spec, Prod.mk.sizeOf_spec] at *
    omega

/-! ## Nesting -/

theorem nestingItems_le_iff {items : List Json} {n : Nat} :
    nestingItems items ≤ n ↔ ∀ item ∈ items, item.nesting ≤ n := by
  induction items with
  | nil => simp [nestingItems]
  | cons item rest ih => rw [nestingItems, Nat.max_le, ih, List.forall_mem_cons]

theorem nestingMembers_le_iff {members : List (String × Json)} {n : Nat} :
    nestingMembers members ≤ n ↔ ∀ member ∈ members, member.2.nesting ≤ n := by
  induction members with
  | nil => simp [nestingMembers]
  | cons member rest ih =>
    obtain ⟨key, item⟩ := member
    rw [nestingMembers, Nat.max_le, ih, List.forall_mem_cons]

/-- A bound on the nesting of an array bounds its items, one level deeper, and nothing else. -/
theorem nesting_array_le_iff {items : List Json} {n : Nat} :
    (array items).nesting ≤ n + 1 ↔ ∀ item ∈ items, item.nesting ≤ n := by
  rw [nesting, Nat.succ_le_succ_iff, nestingItems_le_iff]

/-- A bound on the nesting of an object bounds its members, one level deeper, and nothing else. -/
theorem nesting_object_le_iff {members : List (String × Json)} {n : Nat} :
    (object members).nesting ≤ n + 1 ↔ ∀ member ∈ members, member.2.nesting ≤ n := by
  rw [nesting, Nat.succ_le_succ_iff, nestingMembers_le_iff]

/-- A bound that a document nests below holds for its items and members, too. -/
theorem childrenHave_nesting_lt_of_lt {n : Nat} {document : Json} (h : document.nesting < n) :
    document.ChildrenHave fun child => child.nesting < n :=
  document.childrenHave_nesting_lt.mono fun _ hchild => Nat.lt_trans hchild h

/-! ## Merging repeated names -/

theorem mergeKeysItems_eq_map (items : List Json) : mergeKeysItems items = items.map mergeKeys := by
  induction items with
  | nil => rfl
  | cons item rest ih => rw [mergeKeysItems, ih, List.map_cons]

theorem mergeKeysMembers_eq_mapValues (members : List (String × Json)) :
    mergeKeysMembers members = Fields.mapValues mergeKeys members := by
  induction members with
  | nil => rfl
  | cons member rest ih =>
    obtain ⟨key, item⟩ := member
    rw [mergeKeysMembers, ih]
    rfl

/-- Merging repeated names does not make a document nest deeper. -/
theorem nesting_mergeKeys_le (document : Json) : document.mergeKeys.nesting ≤ document.nesting := by
  induction document using Json.induction with
  | array items ih =>
    show (mergeKeys (array items)).nesting ≤ nestingItems items + 1
    rw [mergeKeys, mergeKeysItems_eq_map, nesting_array_le_iff]
    intro item hitem
    obtain ⟨original, horiginal, rfl⟩ := List.mem_map.mp hitem
    exact Nat.le_trans (ih original horiginal) (nesting_le_of_mem_items horiginal)
  | object members ih =>
    show (mergeKeys (object members)).nesting ≤ nestingMembers members + 1
    rw [mergeKeys, mergeKeysMembers_eq_mapValues, nesting_object_le_iff]
    refine Fields.forall_mem_ofList (P := fun item : Json => item.nesting ≤ nestingMembers members)
      fun member hmember => ?_
    obtain ⟨original, horiginal, rfl⟩ := List.mem_map.mp hmember
    exact Nat.le_trans (ih original horiginal) (nesting_le_of_mem_members horiginal)
  | _ => exact Nat.le_refl _

/-! ## Distinct names -/

/-- The names of each object in a document are distinct. -/
inductive DistinctNames : Json → Prop
  | null : DistinctNames null
  | bool (b : Bool) : DistinctNames (bool b)
  | integer (n : Int) : DistinctNames (integer n)
  | float (x : Binary64) : DistinctNames (float x)
  | string (text : String) : DistinctNames (string text)
  | array {items : List Json} (h : ∀ item ∈ items, DistinctNames item) : DistinctNames (array items)
  | object {members : List (String × Json)} (hkeys : (Fields.keys members).Nodup)
      (h : ∀ member ∈ members, DistinctNames member.2) : DistinctNames (object members)

theorem DistinctNames.children {document : Json} (h : document.DistinctNames) :
    document.ChildrenHave DistinctNames := by
  cases h with
  | array hitems => exact hitems
  | object _ hmembers => exact hmembers
  | _ => trivial

/-- Once repeated names have been merged, names are distinct. -/
theorem distinctNames_mergeKeys (document : Json) : document.mergeKeys.DistinctNames := by
  induction document using Json.induction with
  | array items ih =>
    rw [mergeKeys, mergeKeysItems_eq_map]
    exact .array (List.forall_mem_map.mpr ih)
  | object members ih =>
    rw [mergeKeys, mergeKeysMembers_eq_mapValues]
    exact .object (Fields.nodup_keys_ofList _) (Fields.forall_mem_ofList (List.forall_mem_map.mpr ih))
  | null => exact .null
  | bool b => exact .bool b
  | integer n => exact .integer n
  | float x => exact .float x
  | string text => exact .string text

end JsonFilter.Json
