import JsonFilter.Proofs.Text.Digits
import JsonFilter.Value.Access

/-!
# Positions in machine words

The positions in arrays and strings, worked out in words of sixty-four bits in place of unbounded integers.
In a sequence of fewer than `2 ^ 63` items no step overflows, so that the words are the integers.

* `toNat_rangeWords`: the two ends of a range;
* `placeWord?_eq_none_iff`, `toNat_of_placeWord?`: the place of a position that may count from the end;
* `wordOfDigits?_eq`: the word that a digit text names, if it fits into a word.
-/

namespace JsonFilter

/-! ## Conversions between words -/

/-- An unsigned word below the sign bit keeps its number as a signed word. -/
theorem toInt_toInt64 {word : UInt64} (h : word.toNat < 2 ^ 63) : word.toInt64.toInt = word.toNat := by
  show word.toBitVec.toInt = word.toBitVec.toNat
  exact BitVec.toInt_eq_toNat_of_lt (by show 2 * word.toNat < 2 ^ 64; omega)

/-- A signed word that is not negative keeps its number as an unsigned word. -/
theorem toNat_toUInt64 {word : Int64} (h : 0 ≤ word.toInt) : (word.toUInt64.toNat : Int) = word.toInt := by
  have hword : word.toInt = if 2 * word.toUInt64.toNat < 2 ^ 64 then (word.toUInt64.toNat : Int)
      else word.toUInt64.toNat - 2 ^ 64 := BitVec.toInt_eq_toNat_cond word.toBitVec
  have hlt := word.toUInt64.toNat_lt
  split at hword <;> omega

/-- The magnitude of a signed word fits into an unsigned word, also that of the least one. -/
theorem toNat_toUInt64_abs (word : Int64) : word.abs.toUInt64.toNat = word.toInt.natAbs := by
  have habs : word.abs.toUInt64.toNat = if word.toBitVec.msb = true then 2 ^ 64 - word.toBitVec.toNat
      else word.toBitVec.toNat := (congrArg BitVec.toNat word.toBitVec_abs).trans BitVec.toNat_abs
  have hword : word.toInt = if word.toBitVec.msb = true then (word.toBitVec.toNat : Int) - (2 ^ 64 : Nat)
      else (word.toBitVec.toNat : Int) := BitVec.toInt_eq_msb_cond word.toBitVec
  have hlt := word.toBitVec.isLt
  rw [habs, hword]
  split <;> omega

/-! ## Ends of ranges -/

/-- The sum of two signed words, moved to the nearest word if it is none. -/
def saturatingAdd (a b : Int64) : Int64 :=
  Int64.ofIntClamp (a.toInt + b.toInt)

/-- A number less a number that is not greater is never out of the range of words. -/
theorem toInt_saturatingAdd {a b : Int64} (ha : 0 ≤ a.toInt) (hb : b.toInt < 0) :
    (saturatingAdd a b).toInt = a.toInt + b.toInt := by
  have hlt := a.toInt_lt
  have hle := b.le_toInt
  refine Int64.toInt_ofIntClamp ?_ ?_
  · show -2 ^ 63 ≤ a.toInt + b.toInt
    omega
  · show a.toInt + b.toInt ≤ 2 ^ 63 - 1
    omega

/-- Where a bound of a range falls in a sequence of the given length, in words. -/
def clampWord (length : UInt64) (bound : Int64) : UInt64 :=
  if bound < 0 then (max (saturatingAdd length.toInt64 bound) 0).toUInt64 else min bound.toUInt64 length

/-- The two ends of a range in a sequence of the given length, in words. -/
def rangeWords (length : UInt64) (start stop : Option Int64) : UInt64 × UInt64 :=
  let first := start.elim 0 (clampWord length)
  let last := stop.elim length (clampWord length)
  (first, max last first)

theorem toInt_max_zero (word : Int64) : (max word 0).toInt = max word.toInt 0 := by
  have hmax : max word 0 = if word ≤ 0 then 0 else word := rfl
  rw [hmax]
  split <;> rename_i h <;> rw [Int64.le_iff_toInt_le] at h
  · exact (max_eq_right h).symm
  · exact (max_eq_left (le_of_not_ge h)).symm

/-- A bound falls in the same place in words as in integers. -/
theorem toNat_clampWord {length : UInt64} (hlength : length.toNat < 2 ^ 63) (bound : Int64) :
    (clampWord length bound).toNat = clampBound length.toNat bound.toInt := by
  have hzero : bound < 0 ↔ bound.toInt < 0 := Int64.lt_iff_toInt_lt
  have hword := toInt_toInt64 hlength
  by_cases hneg : bound.toInt < 0
  · have hsum : (saturatingAdd length.toInt64 bound).toInt = length.toNat + bound.toInt := by
      rw [toInt_saturatingAdd (by omega) hneg, hword]
    have hmax := toInt_max_zero (saturatingAdd length.toInt64 bound)
    have hplace := toNat_toUInt64 (hmax ▸ le_max_right _ _)
    rw [clampWord, if_pos (hzero.mpr hneg), clampBound, if_pos hneg]
    rw [hmax, hsum] at hplace
    omega
  · have hplace := toNat_toUInt64 (Int.not_lt.mp hneg)
    rw [clampWord, if_neg (hneg ∘ hzero.mp), clampBound, if_neg hneg, UInt64.toNat_min]
    omega

/-- The ends of a range are the same in words as in integers. -/
theorem toNat_rangeWords {length : UInt64} (hlength : length.toNat < 2 ^ 63) (start stop : Option Int64) :
    rangeBounds length.toNat (start.map Int64.toInt) (stop.map Int64.toInt) =
      ((rangeWords length start stop).1.toNat, (rangeWords length start stop).2.toNat) := by
  have hend (default : UInt64) (bound : Option Int64) :
      (((bound.map Int64.toInt).map (clampBound length.toNat)).getD default.toNat) =
        (bound.elim default (clampWord length)).toNat := by
    cases bound with
    | none => rfl
    | some bound => exact (toNat_clampWord hlength bound).symm
  have hfirst := hend 0 start
  have hlast := hend length stop
  rw [UInt64.toNat_zero] at hfirst
  simp only [rangeBounds, rangeWords, hfirst, hlast, Prod.mk.injEq, true_and]
  exact (UInt64.toNat_max _ _).symm

/-! ## Places of positions -/

/-- The place of a position in a sequence of the given length, in words; nothing if the position is
outside the sequence. -/
def placeWord? (length : UInt64) (position : Int64) : Option UInt64 :=
  if length < position.abs.toUInt64 ∨ position = length.toInt64 then none
  else some (if position < 0 then length.toInt64 + position else position).toUInt64

/-- Exactly the positions of the sequence have a place. -/
theorem placeWord?_eq_none_iff {length : UInt64} (hlength : length.toNat < 2 ^ 63) {position : Int64} :
    placeWord? length position = none ↔
      position.toInt < -length.toNat ∨ (length.toNat : Int) ≤ position.toInt := by
  have habs : length < position.abs.toUInt64 ↔ length.toNat < position.toInt.natAbs := by
    rw [UInt64.lt_iff_toNat_lt, toNat_toUInt64_abs]
  have heq : position = length.toInt64 ↔ position.toInt = length.toNat := by
    rw [← Int64.toInt_inj, toInt_toInt64 hlength]
  simp only [placeWord?, ite_eq_left_iff, reduceCtorEq, imp_false, not_not, habs, heq]
  omega

variable {length place : UInt64} {position : Int64}

theorem inside_of_placeWord? (hlength : length.toNat < 2 ^ 63) (h : placeWord? length position = some place) :
    -length.toNat ≤ position.toInt ∧ position.toInt < length.toNat := by
  have hinside := mt (placeWord?_eq_none_iff hlength).mpr (h ▸ Option.some_ne_none place)
  omega

/-- The place is the exact one, so that nothing has overflowed on the way to it. -/
theorem toNat_of_placeWord? (hlength : length.toNat < 2 ^ 63) (h : placeWord? length position = some place) :
    (place.toNat : Int) =
      if position.toInt < 0 then length.toNat + position.toInt else position.toInt := by
  have hzero : position < 0 ↔ position.toInt < 0 := Int64.lt_iff_toInt_lt
  have hinside := inside_of_placeWord? hlength h
  rw [placeWord?] at h
  split at h
  · exact absurd h.symm (Option.some_ne_none place)
  · rw [← Option.some.inj h]
    by_cases hneg : position.toInt < 0
    · -- the wrapped sum is the sum, since it lies between zero and the length
      have hsum : (length.toInt64 + position).toInt = length.toNat + position.toInt := by
        rw [Int64.toInt_add, toInt_toInt64 hlength]
        exact Int.bmod_eq_of_le (by omega) (by omega)
      rw [if_pos (hzero.mpr hneg), if_pos hneg, toNat_toUInt64 (by omega), hsum]
    · rw [if_neg (hneg ∘ hzero.mp), if_neg hneg, toNat_toUInt64 (by omega)]

/-- The place is inside the sequence. -/
theorem lt_length_of_placeWord? (hlength : length.toNat < 2 ^ 63)
    (h : placeWord? length position = some place) : place.toNat < length.toNat := by
  have hinside := inside_of_placeWord? hlength h
  have hplace := toNat_of_placeWord? hlength h
  split at hplace <;> omega

/-! ## Words of digit texts -/

/-- One more digit behind the number of a word; nothing if it takes the number out of the words. -/
def pushDigit? (word : UInt64) (digit : Char) : Option UInt64 :=
  let next := 10 * word.toNat + (digit.toNat - '0'.toNat)
  if next < 2 ^ 64 then some (UInt64.ofNat next) else none

/-- The word that a digit text names, read digit by digit; nothing if a number on the way is no word. -/
def wordOfDigits? (digits : List Char) : Option UInt64 :=
  digits.foldlM pushDigit? 0

theorem le_ofDigitChars (digits : List Char) (n : Nat) : n ≤ Nat.ofDigitChars 10 digits n := by
  induction digits generalizing n with
  | nil => rw [Nat.ofDigitChars_nil]
  | cons digit digits ih =>
    rw [Nat.ofDigitChars_cons]
    exact le_trans (by omega) (ih _)

/-- What has left the words does not come back into them. -/
theorem foldlM_pushDigit? (digits : List Char) (word : UInt64) :
    digits.foldlM pushDigit? word =
      if Nat.ofDigitChars 10 digits word.toNat < 2 ^ 64
      then some (UInt64.ofNat (Nat.ofDigitChars 10 digits word.toNat)) else none := by
  induction digits generalizing word with
  | nil => rw [Nat.ofDigitChars_nil, if_pos word.toNat_lt, UInt64.ofNat_toNat]; rfl
  | cons digit digits ih =>
    rw [List.foldlM_cons, Nat.ofDigitChars_cons, pushDigit?]
    by_cases hnext : 10 * word.toNat + (digit.toNat - '0'.toNat) < 2 ^ 64
    · rw [if_pos hnext]
      show digits.foldlM pushDigit? (UInt64.ofNat (10 * word.toNat + (digit.toNat - '0'.toNat))) = _
      rw [ih, UInt64.toNat_ofNat_of_lt' hnext]
    · have hle := le_ofDigitChars digits (10 * word.toNat + (digit.toNat - '0'.toNat))
      rw [if_neg hnext, if_neg (by omega)]
      rfl

/-- A digit text names a word if its number is below `2 ^ 64`. -/
theorem wordOfDigits?_eq (digits : List Char) :
    wordOfDigits? digits =
      if Text.toNat digits < 2 ^ 64 then some (UInt64.ofNat (Text.toNat digits)) else none := by
  rw [wordOfDigits?, foldlM_pushDigit?, Text.toNat_eq, UInt64.toNat_zero]

end JsonFilter
