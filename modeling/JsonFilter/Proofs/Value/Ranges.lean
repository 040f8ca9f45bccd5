import JsonFilter.Proofs.Value.Positions

/-!
# Ranges

A range of an array or of a string takes the items from its first place up to its last, in order.  Both
places lie in the value, whatever the bounds are, so that the range never reaches out of it.

* `firstPlace`, `lastPlace`, `places_in_order`: where a range begins and ends;
* `IsRange`, `isRange_sliceList`: what a range takes;
* `sliceList_cut`: a cut loses nothing and doubles nothing;
* `Value.slice?_exact`: ranges of arrays and strings.
-/

namespace JsonFilter

/-! ## Places -/

/-- Where a bound falls among `length` items: a negative bound counts from the end, and a bound outside
falls on the nearer end. -/
def placeOf (length bound : Int) : Int :=
  if 0 ≤ bound then min bound length else max (length + bound) 0

/-- The place at which a range begins. -/
def firstPlace (length : Int) (start : Option Int) : Int :=
  start.elim 0 (placeOf length)

/-- The place up to which a range goes. -/
def lastPlace (length : Int) (start stop : Option Int) : Int :=
  max (firstPlace length start) (stop.elim length (placeOf length))

theorem clampBound_eq (length : Nat) (bound : Int) : (clampBound length bound : Int) = placeOf length bound := by
  unfold clampBound placeOf
  split <;> split <;> omega

/-- The bounds of a range are its places. -/
theorem rangeBounds_eq (length : Nat) (start stop : Option Int) :
    ((rangeBounds length start stop).1 : Int) = firstPlace length start ∧
      ((rangeBounds length start stop).2 : Int) = lastPlace length start stop := by
  have hend (default : Nat) (bound : Option Int) :
      (((bound.map (clampBound length)).getD default : Nat) : Int) = bound.elim (default : Int) (placeOf length) := by
    cases bound with
    | none => rfl
    | some bound => exact clampBound_eq length bound
  have hfirst : ((rangeBounds length start stop).1 : Int) = firstPlace length start := hend 0 start
  have hlast : (rangeBounds length start stop).2 =
      max ((stop.map (clampBound length)).getD length) (rangeBounds length start stop).1 := rfl
  refine ⟨hfirst, ?_⟩
  rw [lastPlace, ← hfirst, ← hend length stop, hlast, max_comm]
  omega

theorem placeOf_bounds (length : Nat) (bound : Int) :
    0 ≤ placeOf length bound ∧ placeOf length bound ≤ length := by
  unfold placeOf
  split <;> omega

/-- The places of a range are in order and in the sequence. -/
theorem places_in_order (length : Nat) (start stop : Option Int) :
    0 ≤ firstPlace length start ∧ firstPlace length start ≤ lastPlace length start stop ∧
      lastPlace length start stop ≤ length := by
  have hfirst : 0 ≤ firstPlace length start ∧ firstPlace length start ≤ length := by
    cases start with
    | none => exact ⟨le_rfl, Int.natCast_nonneg length⟩
    | some bound => exact placeOf_bounds length bound
  have hstop : stop.elim (length : Int) (placeOf length) ≤ length := by
    cases stop with
    | none => exact le_rfl
    | some bound => exact (placeOf_bounds length bound).2
  exact ⟨hfirst.1, le_max_left _ _, max_le hfirst.2 hstop⟩

/-! ## What ranges take -/

/-- A list has the items of another one from a place up to a place, in order. -/
structure IsRange {α : Type} (part whole : List α) (first last : Int) : Prop where
  /-- As many items as there are places. -/
  length_eq : (part.length : Int) = last - first
  /-- Each place from the first on, with the item that stands there. -/
  getElem?_eq : ∀ j < part.length, part[j]? = whole[(first + j).toNat]?

section Lists

variable {α : Type} (items : List α) (start stop : Option Int)

theorem isRange_sliceList :
    IsRange (sliceList items start stop) items (firstPlace items.length start)
      (lastPlace items.length start stop) := by
  obtain ⟨hfirst, hlast⟩ := rangeBounds_eq items.length start stop
  have horder := places_in_order items.length start stop
  have hlength : (sliceList items start stop).length =
      (rangeBounds items.length start stop).2 - (rangeBounds items.length start stop).1 := by
    rw [sliceList, List.length_take, List.length_drop]
    omega
  constructor
  · omega
  · intro j hj
    have hplace : (firstPlace items.length start + j).toNat = (rangeBounds items.length start stop).1 + j := by
      omega
    rw [hplace, sliceList, List.getElem?_take_of_lt (hlength ▸ hj), List.getElem?_drop]

theorem map_sliceList {β : Type} (f : α → β) :
    sliceList (items.map f) start stop = (sliceList items start stop).map f := by
  simp only [sliceList, List.length_map, List.map_take, List.map_drop]

/-- The items before a cut and the items behind it are all the items. -/
theorem sliceList_cut (cut : Int) :
    sliceList items none (some cut) ++ sliceList items (some cut) none = items := by
  have hle : clampBound items.length cut ≤ items.length := by
    have hplace := (placeOf_bounds items.length cut).2
    rw [← clampBound_eq] at hplace
    omega
  have hbefore : sliceList items none (some cut) = items.take (clampBound items.length cut) := by
    simp only [sliceList, rangeBounds, Option.map_none, Option.map_some, Option.getD_none, Option.getD_some,
      List.drop_zero, Nat.sub_zero, Nat.max_zero]
  have hbehind : sliceList items (some cut) none = items.drop (clampBound items.length cut) := by
    simp only [sliceList, rangeBounds, Option.map_none, Option.map_some, Option.getD_none, Option.getD_some,
      Nat.max_eq_left hle]
    exact List.take_of_length_le (List.length_drop ▸ le_rfl)
  rw [hbefore, hbehind, List.take_append_drop]

end Lists

/-! ## Ranges of values -/

namespace Value

/-- The characters of a text, as an array of strings of one character. -/
def characters (text : String) : Value :=
  array (text.toList.map fun c => string (String.singleton c))

/-- The text of a string. -/
def text? : Value → Option String
  | string text => some text
  | _ => none

/-- An array of strings, joined into one string. -/
def joined? : Value → Option Value
  | array items => (items.mapM text?).map fun texts => string (String.join texts)
  | _ => none

/-- Joining the characters of a text gives the text. -/
theorem joined?_characters (cs : List Char) :
    joined? (array (cs.map fun c => string (String.singleton c))) = some (string (String.ofList cs)) := by
  have htexts : (cs.map fun c => string (String.singleton c)).mapM text? = some (cs.map String.singleton) := by
    induction cs with
    | nil => rfl
    | cons c cs ih =>
      rw [List.map_cons, List.mapM_cons, ih]
      rfl
  have hjoin : String.join (cs.map String.singleton) = String.ofList cs := by
    rw [← String.toList_inj, String.toList_join, String.toList_ofList, List.flatMap_map]
    simp only [String.toList_singleton, List.flatMap_singleton']
  rw [joined?, htexts, Option.map_some, hjoin]

/-- A range of a string is the range of its characters. -/
theorem slice?_characters (start stop : Option Int) (text : String) :
    ((characters text).slice? start stop).bind joined? = (string text).slice? start stop := by
  rw [characters, slice?, slice?, Option.bind_some, map_sliceList, joined?_characters]

/-- The items of a range of an array are the items of the array from its first place on. -/
theorem element?_slice (items : List Value) (start stop : Option Int) {j : Nat}
    (hj : (j : Int) < lastPlace items.length start stop - firstPlace items.length start) :
    (array (sliceList items start stop)).element? j =
      (array items).element? (firstPlace items.length start + j) := by
  have hrange := isRange_sliceList items start stop
  have horder := places_in_order items.length start stop
  have hlength := hrange.length_eq
  have hplace : (firstPlace items.length start + j) = ((firstPlace items.length start + j).toNat : Nat) := by
    omega
  rw [element?_natCast, hrange.getElem?_eq j (by omega), hplace, element?_natCast, Int.toNat_natCast]

/-- The words that the ends of a range are worked out in are its places. -/
theorem rangeWords_eq {length : UInt64} (hlength : length.toNat < 2 ^ 63) (start stop : Option Int64) :
    ((rangeWords length start stop).1.toNat : Int) = firstPlace length.toNat (start.map Int64.toInt) ∧
      ((rangeWords length start stop).2.toNat : Int) =
        lastPlace length.toNat (start.map Int64.toInt) (stop.map Int64.toInt) := by
  have hbounds := rangeBounds_eq length.toNat (start.map Int64.toInt) (stop.map Int64.toInt)
  rw [toNat_rangeWords hlength] at hbounds
  exact hbounds

/-- The words are in order and in the sequence, so that their difference does not underflow. -/
theorem rangeWords_in_order {length : UInt64} (hlength : length.toNat < 2 ^ 63) (start stop : Option Int64) :
    (rangeWords length start stop).1 ≤ (rangeWords length start stop).2 ∧
      (rangeWords length start stop).2 ≤ length := by
  obtain ⟨hfirst, hlast⟩ := rangeWords_eq hlength start stop
  have horder := places_in_order length.toNat (start.map Int64.toInt) (stop.map Int64.toInt)
  rw [UInt64.le_iff_toNat_le, UInt64.le_iff_toNat_le]
  omega

/-- A range of an array or of a string takes exactly the items from its first place up to its last, in
order; a string is taken apart by characters.  A cut at any place gives back the whole.  The places
come out the same in words, without leaving the sequence and without overflow. -/
theorem slice?_exact (start stop : Option Int) :
    (∀ length : Nat, 0 ≤ firstPlace length start ∧ firstPlace length start ≤ lastPlace length start stop ∧
      lastPlace length start stop ≤ length) ∧
    (∀ items : List Value, ∃ part, (array items).slice? start stop = some (array part) ∧
      IsRange part items (firstPlace items.length start) (lastPlace items.length start stop) ∧
      ∀ j : Nat, (j : Int) < lastPlace items.length start stop - firstPlace items.length start →
        (array part).element? j = (array items).element? (firstPlace items.length start + j)) ∧
    (∀ text : String, ∃ part, (string text).slice? start stop = some (string part) ∧
      IsRange part.toList text.toList (firstPlace text.length start) (lastPlace text.length start stop) ∧
      ((characters text).slice? start stop).bind joined? = some (string part)) ∧
    (∀ cut : Int,
      (∀ items : List Value, ∃ before behind, (array items).slice? none (some cut) = some (array before) ∧
        (array items).slice? (some cut) none = some (array behind) ∧ before ++ behind = items) ∧
      ∀ text : String, ∃ before behind, (string text).slice? none (some cut) = some (string before) ∧
        (string text).slice? (some cut) none = some (string behind) ∧ before ++ behind = text) ∧
    ∀ length : UInt64, length.toNat < 2 ^ 63 → ∀ low high : Option Int64,
      let range := rangeWords length low high
      let first := firstPlace length.toNat (low.map Int64.toInt)
      let last := lastPlace length.toNat (low.map Int64.toInt) (high.map Int64.toInt)
      (range.1.toNat : Int) = first ∧ (range.2.toNat : Int) = last ∧
        range.1 ≤ range.2 ∧ range.2 ≤ length ∧ ((range.2 - range.1).toNat : Int) = last - first := by
  refine ⟨fun length => places_in_order length start stop, fun items => ?_, fun text => ?_,
    fun cut => ⟨fun items => ?_, fun text => ?_⟩, fun length hlength low high => ?_⟩
  · exact ⟨sliceList items start stop, rfl, isRange_sliceList items start stop,
      fun j hj => element?_slice items start stop hj⟩
  · have hrange := isRange_sliceList text.toList start stop
    rw [String.length_toList] at hrange
    refine ⟨String.ofList (sliceList text.toList start stop), rfl, ?_, slice?_characters start stop text⟩
    rw [String.toList_ofList]
    exact hrange
  · exact ⟨_, _, rfl, rfl, sliceList_cut items cut⟩
  · refine ⟨_, _, rfl, rfl, ?_⟩
    rw [← String.ofList_append, sliceList_cut, String.ofList_toList]
  · obtain ⟨hfirst, hlast⟩ := rangeWords_eq hlength low high
    obtain ⟨horder, hin⟩ := rangeWords_in_order hlength low high
    refine ⟨hfirst, hlast, horder, hin, ?_⟩
    rw [UInt64.toNat_sub_of_le _ _ horder, ← hfirst, ← hlast]
    exact Int.natCast_sub (UInt64.le_iff_toNat_le.mp horder)

/-- The last two of three items, and three items between the least and the greatest word. -/
theorem slice?_exact_tail :
    let items : List Value := [.bool true, .null, .string "c"]
    let range := rangeWords 3 (some Int64.minValue) (some Int64.maxValue)
    (∃ part, (array items).slice? (some (-2)) none = some (array part) ∧ IsRange part items 1 3 ∧
      (array part).element? (1 : Nat) = (array items).element? (1 + (1 : Nat))) ∧
    (range.1.toNat : Int) = 0 ∧ (range.2.toNat : Int) = 3 ∧ range.1 ≤ range.2 ∧ range.2 ≤ 3 ∧
      ((range.2 - range.1).toNat : Int) = 3 := by
  intro items range
  obtain ⟨-, harray, -, -, hwords⟩ := slice?_exact (some (-2)) none
  obtain ⟨part, hpart, hrange, helement⟩ := harray items
  exact ⟨⟨part, hpart, hrange, helement 1 (by decide)⟩,
    hwords 3 (by decide) (some Int64.minValue) (some Int64.maxValue)⟩

end Value

end JsonFilter
