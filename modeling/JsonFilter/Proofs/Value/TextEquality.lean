import JsonFilter.Proofs.Value.RoundTrip

/-!
# Equality of values and of texts

Two values have the same compact text exactly if they have the same normal form.  For values with finite
numbers this is equality: the text is as fine as equality, and equality is as fine as the text.

* `Value.normalize_eq_of_toJson_eq`: values with the same document have the same normal form;
* `Value.compactText_eq_iff`: which values have the same compact text;
* `Value.plainText_unsignZeros`: the plain text does not show the signs of zeros either;
* `Value.hasNumber_mapLeaves_iff`: the numbers of a value with other leaves;
* `Value.beq_iff_compactText_eq`: equality is equality of texts, and what holds of it on all values.
-/

namespace JsonFilter

theorem Binary64.isNaN_unsignZero_iff {x : Binary64} : x.unsignZero.IsNaN ↔ x.IsNaN := by
  by_cases h : x.IsZero
  · rw [unsignZero_of_isZero h]
    exact iff_of_false (fun hnan => hnan.2 rfl) (fun hnan => hnan.2 h.2)
  · rw [unsignZero_of_not_isZero h]

namespace Value

/-! ## Compact texts -/

/-- Where equal images under one function force equal images under another, lists with equal images under
the first have equal images under the second. -/
theorem map_eq_map_of_imp {α β γ : Type} {f : α → β} {g : α → γ} {items others : List α}
    (h : ∀ item ∈ items, ∀ other, f item = f other → g item = g other)
    (hmap : items.map f = others.map f) : items.map g = others.map g := by
  induction items generalizing others with
  | nil =>
    rw [List.map_eq_nil_iff.mp hmap.symm]
  | cons item rest ih =>
    obtain ⟨hitem, hrest⟩ := List.forall_mem_cons.mp h
    cases others with
    | nil => cases hmap
    | cons other others =>
      obtain ⟨hfirst, hothers⟩ := List.cons.inj hmap
      rw [List.map_cons, List.map_cons, hitem other hfirst, ih hrest hothers]

theorem distinctNames_of_nesting_eq_zero {value : Value} (h : value.nesting = 0) :
    value.DistinctNames := by
  cases value with
  | null => exact .null
  | bool b => exact .bool b
  | number x => exact .number x
  | string text => exact .string text
  | array items => cases h
  | object fields => cases h

/-- Scalars with the same document have the same normal form: the document stands for it. -/
theorem normalize_eq_of_toJson_eq_of_scalar {value other : Value} (hscalar : value.nesting = 0)
    (h : toJson value = toJson other) : value.normalize = other.normalize := by
  have hother : other.nesting = 0 := by rw [← nesting_toJson, ← h, nesting_toJson, hscalar]
  rw [← ofJson_toJson_eq_normalize (distinctNames_of_nesting_eq_zero hscalar), h,
    ofJson_toJson_eq_normalize (distinctNames_of_nesting_eq_zero hother)]

/-- Values with the same document have the same normal form. -/
theorem normalize_eq_of_toJson_eq {value other : Value} (h : toJson value = toJson other) :
    value.normalize = other.normalize := by
  induction value using Value.induction generalizing other with
  | array items ih =>
    -- Only an array has an array for its document.
    cases other with
    | array others =>
      rw [toJson, toJson, toJsonItems_eq_map, toJsonItems_eq_map, Json.array.injEq] at h
      rw [normalize_array, normalize_array]
      exact congrArg array (map_eq_map_of_imp (fun item hitem _ => ih item hitem) h)
    | object others => cases h
    | _ => exact (normalize_eq_of_toJson_eq_of_scalar rfl h.symm).symm
  | object fields ih =>
    cases other with
    | object others =>
      rw [toJson, toJson, toJsonFields_eq_mapValues, toJsonFields_eq_mapValues, Json.object.injEq] at h
      rw [normalize_object, normalize_object]
      refine congrArg object (map_eq_map_of_imp (fun field hfield other hfields => ?_) h)
      obtain ⟨hkey, hvalue⟩ := Prod.mk.inj hfields
      exact Prod.ext hkey (ih field hfield hvalue)
    | array others => cases h
    | _ => exact (normalize_eq_of_toJson_eq_of_scalar rfl h.symm).symm
  | _ => exact normalize_eq_of_toJson_eq_of_scalar rfl h

/-- Two values have the same compact text exactly if they have the same normal form. -/
theorem compactText_eq_iff {value other : Value} :
    value.compactText = other.compactText ↔ value.normalize = other.normalize := by
  constructor
  · intro h
    rw [compactText_eq, compactText_eq] at h
    exact normalize_eq_of_toJson_eq
      (Json.eq_of_text_eq (wellFormed_toJson value) (wellFormed_toJson other) h)
  · intro h
    rw [← compactText_normalize value, h, compactText_normalize]

/-! ## Plain texts -/

theorem plainNumber_of_isZero {x : Binary64} (h : x.IsZero) : plainNumber x = Text.ofInt 0 := by
  unfold plainNumber
  rw [if_pos (Binary64.isFinite_of_isZero h), Binary64.toInt?_of_isZero h]
  rfl

theorem plainNumber_unsignZero (x : Binary64) : plainNumber x.unsignZero = plainNumber x := by
  by_cases h : x.IsZero
  · rw [plainNumber_of_isZero h, plainNumber_of_isZero (Binary64.isZero_unsignZero_iff.mpr h)]
  · rw [Binary64.unsignZero_of_not_isZero h]

/-- The plain text of a value does not show the signs of zeros. -/
theorem plainText_unsignZeros (value : Value) : value.unsignZeros.plainText = value.plainText := by
  have hwriter : value.unsignZeros.writer .plain = value.writer .plain :=
    writer_mapLeaves plainNumber_unsignZero value
  rw [plainText, plainText, hwriter]

/-! ## Equality -/

/-- The numbers of a value with other leaves are those that come from its numbers. -/
theorem hasNumber_mapLeaves_iff {f : Binary64 → Binary64} {g : Bool → Bool} {x : Binary64}
    {value : Value} : HasNumber x (value.mapLeaves f g) ↔ ∃ y, HasNumber y value ∧ f y = x := by
  induction value using Value.induction with
  | null =>
    rw [mapLeaves_null]
    exact iff_of_false nofun fun ⟨_, hy, _⟩ => nomatch hy
  | bool b =>
    rw [mapLeaves_bool]
    exact iff_of_false nofun fun ⟨_, hy, _⟩ => nomatch hy
  | number y => simp [eq_comm]
  | string text =>
    rw [mapLeaves_string]
    exact iff_of_false nofun fun ⟨_, hy, _⟩ => nomatch hy
  | array items ih =>
    rw [mapLeaves_array, hasNumber_array_iff]
    constructor
    · rintro ⟨_, hmem, hx⟩
      obtain ⟨item, hitem, rfl⟩ := List.mem_map.mp hmem
      obtain ⟨y, hy, hfy⟩ := (ih item hitem).mp hx
      exact ⟨y, .item hitem hy, hfy⟩
    · rintro ⟨y, hy, hfy⟩
      obtain ⟨item, hitem, hy⟩ := hasNumber_array_iff.mp hy
      exact ⟨_, List.mem_map_of_mem hitem, (ih item hitem).mpr ⟨y, hy, hfy⟩⟩
  | object fields ih =>
    rw [mapLeaves_object, hasNumber_object_iff]
    constructor
    · rintro ⟨_, hmem, hx⟩
      obtain ⟨field, hfield, rfl⟩ := List.mem_map.mp hmem
      obtain ⟨y, hy, hfy⟩ := (ih field hfield).mp hx
      exact ⟨y, .field hfield hy, hfy⟩
    · rintro ⟨y, hy, hfy⟩
      obtain ⟨field, hfield, hy⟩ := hasNumber_object_iff.mp hy
      exact ⟨_, List.mem_map_of_mem hfield, (ih field hfield).mpr ⟨y, hy, hfy⟩⟩

/-- Taking away the signs of zeros makes no NaN and unmakes none. -/
theorem nanFree_unsignZeros_iff {value : Value} : value.unsignZeros.NaNFree ↔ value.NaNFree := by
  constructor
  · intro h x hx hnan
    exact h _ (hasNumber_mapLeaves_iff.mpr ⟨x, hx, rfl⟩) (Binary64.isNaN_unsignZero_iff.mpr hnan)
  · intro h x hx hnan
    obtain ⟨y, hy, rfl⟩ := hasNumber_mapLeaves_iff.mp hx
    exact h y hy (Binary64.isNaN_unsignZero_iff.mp hnan)

/-- Equality is symmetric. -/
theorem beq_symm {value other : Value} (h : beq value other = true) : beq other value = true := by
  obtain ⟨hfree, hsame⟩ := beq_iff.mp h
  refine beq_iff.mpr ⟨?_, hsame.symm⟩
  rwa [← nanFree_unsignZeros_iff, ← hsame, nanFree_unsignZeros_iff]

/-- Equality is transitive. -/
theorem beq_trans {value other third : Value} (h : beq value other = true)
    (h' : beq other third = true) : beq value third = true := by
  obtain ⟨hfree, hsame⟩ := beq_iff.mp h
  exact beq_iff.mpr ⟨hfree, hsame.trans (beq_iff.mp h').2⟩

/-- A value equals itself exactly if it holds no NaN. -/
theorem beq_self_iff {value : Value} : beq value value = true ↔ value.NaNFree := by
  rw [beq_iff, and_iff_left rfl]

/-- Values with finite numbers are equal exactly if they have the same normal form. -/
theorem beq_iff_normalize_eq {value other : Value} (hfinite : ∀ x, value.HasNumber x → x.IsFinite)
    (hfinite' : ∀ x, other.HasNumber x → x.IsFinite) :
    beq value other = true ↔ value.normalize = other.normalize := by
  have hfree : value.NaNFree := fun x hx hnan => hfinite x hx hnan.1
  rw [beq_iff, and_iff_right hfree, normalize_eq_unsignZeros hfinite, normalize_eq_unsignZeros hfinite']

/-- Equal values have the same plain text. -/
theorem plainText_eq_of_beq {value other : Value} (h : beq value other = true) :
    value.plainText = other.plainText := by
  rw [← plainText_unsignZeros value, (beq_iff.mp h).2, plainText_unsignZeros]

/-- Values whose numbers are all finite are equal exactly if their compact texts are the same, and equal
values have the same plain text.  On all values equality is symmetric and transitive, and it is reflexive
exactly on the values that hold no NaN. -/
theorem beq_iff_compactText_eq :
    (∀ value other : Value, (∀ x, value.HasNumber x → x.IsFinite) →
      (∀ x, other.HasNumber x → x.IsFinite) →
      ((value == other) = true ↔ value.compactText = other.compactText)) ∧
    (∀ value other : Value, (value == other) = true → value.plainText = other.plainText) ∧
    (∀ value other : Value, (value == other) = true → (other == value) = true) ∧
    (∀ value other third : Value, (value == other) = true → (other == third) = true →
      (value == third) = true) ∧
    ∀ value : Value, (value == value) = true ↔ ∀ x, value.HasNumber x → ¬x.IsNaN := by
  refine ⟨fun value other hfinite hfinite' => ?_, fun value other => plainText_eq_of_beq,
    fun value other => beq_symm, fun value other third => beq_trans, fun value => beq_self_iff⟩
  rw [compactText_eq_iff]
  exact beq_iff_normalize_eq hfinite hfinite'

/-- Zeros of both signs are equal and have one text; fields in another order make another value. -/
theorem beq_iff_compactText_eq_zeros :
    (object [("a", number (.zero true)), ("b", null)] ==
        object [("a", number (.zero false)), ("b", null)]) = true ∧
    (object [("a", number (.zero true)), ("b", null)] ==
        object [("b", null), ("a", number (.zero true))]) ≠ true := by
  have hzero : ∀ negative, (number (.zero negative)).WellFormed := fun negative =>
    .number (Binary64.isFinite_of_isZero (Binary64.isZero_zero negative))
  have hwell : ∀ negative, (object [("a", number (.zero negative)), ("b", null)]).WellFormed :=
    fun negative => .object (by decide : ["a", "b"].Nodup)
      (List.forall_mem_cons.mpr ⟨hzero negative, List.forall_mem_singleton.mpr .null⟩)
  have hwell' : (object [("b", null), ("a", number (.zero true))]).WellFormed :=
    .object (by decide : ["b", "a"].Nodup)
      (List.forall_mem_cons.mpr ⟨.null, List.forall_mem_singleton.mpr (hzero true)⟩)
  constructor
  · exact (beq_iff_compactText_eq.1 _ _ (fun _ => (hwell true).isFinite)
      (fun _ => (hwell false).isFinite)).mpr (by decide +kernel)
  · rw [ne_eq, beq_iff_compactText_eq.1 _ _ (fun _ => (hwell true).isFinite) fun _ => hwell'.isFinite]
    decide +kernel

end Value

end JsonFilter
