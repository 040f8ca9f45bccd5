import JsonFilter.Proofs.Value.Words

/-!
# Access by position

An array answers for the positions inside it, counted from either end, for the names that spell such a
position, and for all its items in order.  The three agree, and every other position or name is null.

* `Spells`, `spells_iff`: the one name that spells a position;
* `itemNamed?_of_spells`, `itemNamed?_eq_none`: items by name;
* `Value.array_accesses_agree`: positions, names and members of an array.
-/

namespace JsonFilter

/-! ## Names of positions -/

/-- A name spells a position by ASCII digits alone, without a leading zero. -/
def Spells (name : String) (position : Nat) : Prop :=
  Text.IsWhole name.toList ∧ Text.toNat name.toList = position

/-- Only one name spells a position. -/
theorem spells_iff {name : String} {position : Nat} : Spells name position ↔ name = Text.decimal position := by
  have hdecimal : Text.decimal position = String.ofList (Text.ofNat position) := by
    rw [Text.decimal, Text.ofInt, if_neg (by omega), Int.natAbs_natCast]
  rw [hdecimal]
  constructor
  · rintro ⟨hwhole, rfl⟩
    rw [Text.ofNat_toNat hwhole, String.ofList_toList]
  · rintro rfl
    rw [Spells, String.toList_ofList]
    exact ⟨Text.isWhole_ofNat position, Text.toNat_ofNat position⟩

theorem isPosition_iff {digits : List Char} : isPosition digits = true ↔ Text.IsWhole digits := by
  unfold isPosition
  split
  · exact iff_of_false Bool.false_ne_true fun h => h.1.1 rfl
  · exact iff_of_true rfl ⟨⟨List.cons_ne_nil _ _, List.forall_mem_singleton.mpr rfl⟩, fun _ => rfl⟩
  · rename_i first rest hne
    simp only [Bool.and_eq_true, bne_iff_ne, List.all_eq_true]
    constructor
    · rintro ⟨⟨hzero, hfirst⟩, hrest⟩
      exact ⟨⟨List.cons_ne_nil _ _, List.forall_mem_cons.mpr ⟨hfirst, hrest⟩⟩,
        fun h => absurd (Option.some.inj h) hzero⟩
    · rintro ⟨⟨-, hdigits⟩, hzero⟩
      refine ⟨⟨?_, hdigits _ (List.mem_cons_self ..)⟩, fun c hc => hdigits c (List.mem_cons_of_mem _ hc)⟩
      intro hfirst
      obtain ⟨hfirst, hrest⟩ := List.cons.inj (hzero (congrArg some hfirst))
      exact hne hfirst hrest

variable {α : Type} {items : List α} {name : String}

/-- A name that spells a position names the item there.  The bound on the number of digits never hides
an item. -/
theorem itemNamed?_of_spells {position : Nat} (h : Spells name position) :
    itemNamed? items name = items[position]? := by
  obtain ⟨hwhole, rfl⟩ := h
  by_cases hdigits : name.toList.length ≤ (Text.ofNat items.length).length
  · simp only [itemNamed?, isPosition_iff.mpr hwhole, hdigits, decide_true, Bool.and_self, if_true]
  · have hlength : items.length ≤ Text.toNat name.toList := by
      by_contra hlt
      have hmono := Text.length_ofNat_mono (Nat.le_of_not_le hlt)
      rw [Text.ofNat_toNat hwhole] at hmono
      exact hdigits hmono
    simp only [itemNamed?, hdigits, decide_false, Bool.and_false, Bool.false_eq_true, if_false,
      List.getElem?_eq_none hlength]

/-- A name that spells no position of the items names none of them. -/
theorem itemNamed?_eq_none (h : ∀ position < items.length, ¬ Spells name position) :
    itemNamed? items name = none := by
  by_cases hwhole : Text.IsWhole name.toList
  · have hspells : Spells name (Text.toNat name.toList) := ⟨hwhole, rfl⟩
    rw [itemNamed?_of_spells hspells, List.getElem?_eq_none]
    exact Nat.le_of_not_lt fun hlt => h _ hlt hspells
  · simp only [itemNamed?, Bool.eq_false_iff.mpr (mt isPosition_iff.mp hwhole), Bool.false_and,
      Bool.false_eq_true, if_false]

/-- The item at the position that a name spells, where the position is read as a word: a name whose
number is no word names nothing. -/
def itemAtWord? (items : List α) (name : String) : Option α :=
  if isPosition name.toList then (wordOfDigits? name.toList).bind fun word => items[word.toNat]? else none

/-- Reading names as words loses no item. -/
theorem itemAtWord?_eq (hlength : items.length < 2 ^ 63) : itemAtWord? items name = itemNamed? items name := by
  by_cases hwhole : Text.IsWhole name.toList
  · have hspells : Spells name (Text.toNat name.toList) := ⟨hwhole, rfl⟩
    rw [itemAtWord?, if_pos (isPosition_iff.mpr hwhole), wordOfDigits?_eq, itemNamed?_of_spells hspells]
    split
    · rename_i hword
      rw [Option.bind_some, UInt64.toNat_ofNat_of_lt' hword]
    · rw [Option.bind_none, List.getElem?_eq_none (by omega)]
  · rw [itemAtWord?, if_neg (mt isPosition_iff.mp hwhole),
      itemNamed?_eq_none fun position _ hspells => hwhole hspells.1]

/-! ## Positions of arrays -/

namespace Value

variable {items : List Value} {position : Int}

/-- A position reaches its place, counted from the end of the array if it is negative. -/
theorem element?_of_place {place : Nat}
    (h : (place : Int) = if position < 0 then items.length + position else position) :
    (array items).element? position = some (items[place]?.getD null) := by
  simp only [element?, ← h]
  rw [if_neg (Int.not_lt.mpr (Int.natCast_nonneg place)), Int.toNat_natCast]

theorem element?_of_place_of_lt {place : Nat}
    (h : (place : Int) = if position < 0 then items.length + position else position)
    (hlt : place < items.length) : (array items).element? position = items[place]? := by
  rw [element?_of_place h, List.getElem?_eq_getElem hlt, Option.getD_some]

theorem element?_natCast (i : Nat) : (array items).element? i = some (items[i]?.getD null) :=
  element?_of_place (if_neg (Int.not_lt.mpr (Int.natCast_nonneg i))).symm

/-- A position outside an array, before it or behind it, is null. -/
theorem element?_outside (h : position < -items.length ∨ (items.length : Int) ≤ position) :
    (array items).element? position = some null := by
  by_cases hneg : position < 0
  · have hplace : items.length + position < 0 := by omega
    simp only [element?, if_pos hneg, if_pos hplace]
  · have hplace : (position.toNat : Int) = if position < 0 then items.length + position else position := by
      rw [if_neg hneg, Int.toNat_of_nonneg (Int.not_lt.mp hneg)]
    rw [element?_of_place hplace, List.getElem?_eq_none (by omega), Option.getD_none]

/-- Positions count from the start of an array or, if they are negative, from its end. -/
theorem element?_array (position : Int) :
    (array items).element? position =
      if 0 ≤ position ∧ position < items.length then items[position.toNat]?
      else if -items.length ≤ position ∧ position < 0 then items[(items.length + position).toNat]?
      else some null := by
  split
  · rename_i hstart
    exact element?_of_place_of_lt (by rw [if_neg (by omega)]; omega) (by omega)
  · split
    · rename_i hend
      exact element?_of_place_of_lt (by rw [if_pos hend.2]; omega) (by omega)
    · exact element?_outside (by omega)

theorem toNat_ofNat_length (hlength : items.length < 2 ^ 63) :
    (UInt64.ofNat items.length).toNat = items.length :=
  UInt64.toNat_ofNat_of_lt' (lt_trans hlength (by decide))

/-- A place worked out in words is inside the array, and it is the place in integers. -/
theorem place_of_placeWord? (hlength : items.length < 2 ^ 63) {position : Int64} {place : UInt64}
    (h : placeWord? (UInt64.ofNat items.length) position = some place) :
    place.toNat < items.length ∧
      (place.toNat : Int) = if position.toInt < 0 then items.length + position.toInt else position.toInt := by
  have hword := toNat_ofNat_length hlength
  have hlength' : (UInt64.ofNat items.length).toNat < 2 ^ 63 := hword.symm ▸ hlength
  have hlt := lt_length_of_placeWord? hlength' h
  have hexact := toNat_of_placeWord? hlength' h
  rw [hword] at hlt hexact
  exact ⟨hlt, hexact⟩

/-- Positions worked out in words are the positions in integers, also at the ends of the words. -/
theorem element?_toInt (hlength : items.length < 2 ^ 63) (position : Int64) :
    (array items).element? position.toInt =
      (placeWord? (UInt64.ofNat items.length) position).elim (some null) fun place => items[place.toNat]? := by
  cases hplace : placeWord? (UInt64.ofNat items.length) position with
  | none =>
    have hword := toNat_ofNat_length hlength
    have houtside := (placeWord?_eq_none_iff (hword.symm ▸ hlength)).mp hplace
    exact element?_outside (hword ▸ houtside)
  | some place =>
    obtain ⟨hlt, hexact⟩ := place_of_placeWord? hlength hplace
    exact element?_of_place_of_lt hexact hlt

/-- Looking at all the positions of an array gives its items in order. -/
theorem map_element?_range (items : List Value) :
    ((List.range items.length).map fun i : Nat => (array items).element? i) = items.map some := by
  refine List.ext_getElem (by simp) fun i hi hitem => ?_
  have hlt : i < items.length := by simpa using hi
  rw [List.getElem_map, List.getElem_map, List.getElem_range, element?_natCast, List.getElem?_eq_getElem hlt,
    Option.getD_some]

/-- Access to an array by position, by name and to all its members: every position in the array is
reached from its start, from its end, by the name that spells it and in its turn, and everything else is
null.  In words no access leaves the array. -/
theorem array_accesses_agree (items : List Value) :
    (∀ position : Int, (array items).element? position =
      if 0 ≤ position ∧ position < items.length then items[position.toNat]?
      else if -items.length ≤ position ∧ position < 0 then items[(items.length + position).toNat]?
      else some null) ∧
    (∀ (name : String) (position : Nat), Spells name position → position < items.length →
      (array items).field? name = (array items).element? position) ∧
    (∀ name : String, (∀ position < items.length, ¬ Spells name position) →
      (array items).field? name = some null) ∧
    (∃ members, (array items).members? = some members ∧
      members.map some = (List.range items.length).map fun i : Nat => (array items).element? i) ∧
    (items.length < 2 ^ 63 →
      (∀ position : Int64, (array items).element? position.toInt =
        (placeWord? (UInt64.ofNat items.length) position).elim (some null) fun place => items[place.toNat]?) ∧
      (∀ (position : Int64) (place : UInt64), placeWord? (UInt64.ofNat items.length) position = some place →
        place.toNat < items.length ∧
          (place.toNat : Int) =
            if position.toInt < 0 then items.length + position.toInt else position.toInt) ∧
      ∀ name : String, (array items).field? name = some ((itemAtWord? items name).getD null)) := by
  refine ⟨element?_array, fun name position hname _ => ?_, fun name hname => ?_,
    ⟨items, rfl, (map_element?_range items).symm⟩, fun hlength =>
      ⟨element?_toInt hlength, fun _ _ => place_of_placeWord? hlength, fun name => ?_⟩⟩
  · rw [field?, itemNamed?_of_spells hname, element?_natCast]
  · rw [field?, itemNamed?_eq_none hname, Option.getD_none]
  · rw [field?, itemAtWord?_eq hlength]

/-- The second of two items, from either end and by its name; the least word, a leading zero and a name
that is too large for a word reach nothing. -/
theorem array_accesses_agree_pair :
    let items : List Value := [.bool true, .string "b"]
    (array items).element? (-1) = items[1]? ∧
      (array items).field? "1" = (array items).element? (1 : Nat) ∧
      (array items).field? "01" = some null ∧
      (array items).field? "18446744073709551617" = some null ∧
      (array items).element? Int64.minValue.toInt = some null ∧
      placeWord? 2 (-1) = some 1 ∧ (1 : UInt64).toNat < items.length := by
  intro items
  obtain ⟨hpositions, hspelled, hother, -, hwords⟩ := array_accesses_agree items
  obtain ⟨hwords, hplaces, -⟩ := hwords (by decide)
  have hone : Spells "1" 1 := ⟨isPosition_iff.mp rfl, rfl⟩
  have hleading (position : Nat) : ¬ Spells "01" position := fun h =>
    absurd (isPosition_iff.mpr h.1) (by decide)
  have hlarge (position : Nat) (h : Spells "18446744073709551617" position) :
      position = 18446744073709551617 := h.2.symm
  refine ⟨hpositions (-1), hspelled "1" 1 hone (by decide), hother "01" fun position _ => hleading position,
    hother _ fun position hlt h => ?_, hwords Int64.minValue, by decide, (hplaces (-1) 1 (by decide)).1⟩
  have hlt : position < 2 := hlt
  have hposition := hlarge position h
  omega

end Value

end JsonFilter
