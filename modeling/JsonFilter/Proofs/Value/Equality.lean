import JsonFilter.Proofs.Value.Leaves
import Mathlib.Tactic.Tauto

/-!
# Equality and the sign of zero

Values that hold no NaN are equal exactly if they are the same but for the signs of their zeros.

* `Binary64.agrees_iff`: equality of numbers;
* `Value.beq_iff`, `Context.agrees_iff`: equality of values and of contexts.
-/

namespace JsonFilter

/-! ## Numbers -/

namespace Binary64

/-- The number itself, with a zero made positive. -/
def unsignZero (x : Binary64) : Binary64 :=
  if x.IsZero then zero false else x

theorem isZero_zero (negative : Bool) : (zero negative).IsZero :=
  ⟨rfl, rfl⟩

theorem unsignZero_of_isZero {x : Binary64} (h : x.IsZero) : x.unsignZero = zero false :=
  if_pos h

theorem unsignZero_of_not_isZero {x : Binary64} (h : ¬x.IsZero) : x.unsignZero = x :=
  if_neg h

/-- Only zeros become the positive zero. -/
theorem isZero_unsignZero_iff {x : Binary64} : x.unsignZero.IsZero ↔ x.IsZero := by
  by_cases h : x.IsZero
  · rw [unsignZero_of_isZero h]
    exact iff_of_true (isZero_zero false) h
  · rw [unsignZero_of_not_isZero h]

@[simp] theorem unsignZero_unsignZero (x : Binary64) : x.unsignZero.unsignZero = x.unsignZero := by
  by_cases h : x.IsZero
  · rw [unsignZero_of_isZero h, unsignZero_of_isZero (isZero_zero false)]
  · rw [unsignZero_of_not_isZero h, unsignZero_of_not_isZero h]

theorem unsignZero_inj_iff {x y : Binary64} :
    x.unsignZero = y.unsignZero ↔ x = y ∨ x.IsZero ∧ y.IsZero := by
  constructor
  · intro h
    have hzero : x.IsZero ↔ y.IsZero := by
      rw [← isZero_unsignZero_iff, h, isZero_unsignZero_iff]
    by_cases hx : x.IsZero
    · exact Or.inr ⟨hx, hzero.mp hx⟩
    · rw [unsignZero_of_not_isZero hx, unsignZero_of_not_isZero (mt hzero.mpr hx)] at h
      exact Or.inl h
  · rintro (rfl | ⟨hx, hy⟩)
    · rfl
    · rw [unsignZero_of_isZero hx, unsignZero_of_isZero hy]

/-- Two numbers are equal exactly if the first is no NaN and they are the same but for the sign of zero. -/
theorem agrees_iff {x y : Binary64} :
    x.agrees y = true ↔ ¬x.IsNaN ∧ x.unsignZero = y.unsignZero := by
  rw [unsignZero_inj_iff]
  simp only [agrees, decide_eq_true_eq]
  constructor
  · rintro ⟨hx, -, h⟩
    exact ⟨hx, h⟩
  · rintro ⟨hx, h⟩
    refine ⟨hx, ?_, h⟩
    rcases h with rfl | ⟨-, hy⟩
    · exact hx
    · rintro ⟨-, hfraction⟩
      exact hfraction hy.2

end Binary64

/-! ## Values -/

namespace Value

/-- A value without the signs of zeros. -/
def unsignZeros : Value → Value :=
  mapLeaves Binary64.unsignZero id

theorem unsignZeros_unsignZeros (value : Value) :
    value.unsignZeros.unsignZeros = value.unsignZeros := by
  have hzero : Binary64.unsignZero ∘ Binary64.unsignZero = Binary64.unsignZero :=
    funext Binary64.unsignZero_unsignZero
  rw [unsignZeros, mapLeaves_mapLeaves, hzero]
  rfl

/-- No number in a value is a NaN. -/
def NaNFree (value : Value) : Prop :=
  ∀ x, HasNumber x value → ¬x.IsNaN

theorem beqItems_iff {items others : List Value}
    (h : ∀ item ∈ items, ∀ other, beq item other = true ↔
      item.NaNFree ∧ item.unsignZeros = other.unsignZeros) :
    beqItems items others = true ↔
      (∀ item ∈ items, item.NaNFree) ∧ items.map unsignZeros = others.map unsignZeros := by
  induction items generalizing others with
  | nil => cases others <;> simp [beqItems]
  | cons item rest ih =>
    obtain ⟨hitem, hrest⟩ := List.forall_mem_cons.mp h
    cases others with
    | nil => simp [beqItems]
    | cons other others =>
      rw [beqItems, Bool.and_eq_true, hitem, ih hrest, List.forall_mem_cons, List.map_cons,
        List.map_cons, List.cons.injEq]
      exact and_and_and_comm

theorem beqFields_iff {fields others : List (String × Value)}
    (h : ∀ field ∈ fields, ∀ other, beq field.2 other = true ↔
      field.2.NaNFree ∧ field.2.unsignZeros = other.unsignZeros) :
    beqFields fields others = true ↔
      (∀ field ∈ fields, field.2.NaNFree) ∧
        Fields.mapValues unsignZeros fields = Fields.mapValues unsignZeros others := by
  induction fields generalizing others with
  | nil => cases others <;> simp [beqFields, Fields.mapValues]
  | cons field rest ih =>
    obtain ⟨key, value⟩ := field
    obtain ⟨hfield, hrest⟩ := List.forall_mem_cons.mp h
    cases others with
    | nil => simp [beqFields]
    | cons other others =>
      obtain ⟨key', value'⟩ := other
      rw [beqFields, Bool.and_eq_true, Bool.and_eq_true, hfield, ih hrest, List.forall_mem_cons,
        Fields.mapValues_cons, Fields.mapValues_cons, List.cons.injEq, Prod.mk.injEq, beq_iff_eq]
      tauto

/-- Two values are equal exactly if the first holds no NaN and they are the same but for the signs of
zeros. -/
theorem beq_iff {v w : Value} :
    beq v w = true ↔ v.NaNFree ∧ v.unsignZeros = w.unsignZeros := by
  induction v using Value.induction generalizing w with
  | array items ih =>
    cases w with
    | array others =>
      rw [beq, beqItems_iff fun item hitem other => ih item hitem, NaNFree,
        forall_hasNumber_array_iff]
      simp only [unsignZeros, mapLeaves_array, array.injEq]
      rfl
    | _ => simp [beq, unsignZeros]
  | object fields ih =>
    cases w with
    | object others =>
      rw [beq, beqFields_iff fun field hfield other => ih field hfield, NaNFree,
        forall_hasNumber_object_iff]
      simp only [unsignZeros, mapLeaves_object, object.injEq]
      rfl
    | _ => simp [beq, unsignZeros]
  | number x =>
    cases w with
    | number y =>
      rw [beq, Binary64.agrees_iff]
      simp [NaNFree, unsignZeros]
    | _ => simp [beq, unsignZeros]
  | null =>
    have hfree : null.NaNFree := fun _ => nofun
    cases w <;> simp [beq, unsignZeros, hfree]
  | bool b =>
    have hfree : (bool b).NaNFree := fun _ => nofun
    cases w <;> simp [beq, unsignZeros, hfree]
  | string text =>
    have hfree : (string text).NaNFree := fun _ => nofun
    cases w <;> simp [beq, unsignZeros, hfree]

end Value

/-- Two contexts are equal exactly if the first holds no NaN and they are the same but for the signs of
zeros. -/
theorem Context.agrees_iff {context others : Context} :
    context.agrees others = true ↔
      (∀ value ∈ context, value.NaNFree) ∧
        context.map Value.unsignZeros = others.map Value.unsignZeros :=
  Value.beqItems_iff fun _ _ _ => Value.beq_iff

end JsonFilter
