import JsonFilter.Proofs.Decimal.Layout
import JsonFilter.Proofs.Decimal.Shortest

/-!
# The point of the shortest decimal

The size of a double bounds the place of the point in its shortest decimal from both sides.

* `Binary64.lt_point`: how many zeros may follow the point of a double that is not too small;
* `Binary64.point_lt_length`: the point of a double that is not whole stands in front of its last digit;
* `Binary64.point_le`: and has at most sixteen digits before it;
* `Binary64.length_le_point`: the point of a whole double stands behind all its digits.
-/

namespace JsonFilter

theorem Decimal.point_pointed {d : Decimal} (hd : d.digits ≠ 0) :
    d.pointed.point = (Text.ofNat d.digits).length + d.exponent := by
  rw [pointed, if_neg hd]

/-- Stripping zeros leaves no more digits. -/
theorem Decimal.length_pointed_le {d : Decimal} (hd : d.digits ≠ 0) :
    d.pointed.digits.length ≤ (Text.ofNat d.digits).length := by
  obtain ⟨k, hk⟩ := exists_stripZeros (Text.ofNat d.digits)
  have hlength := congrArg List.length hk
  rw [List.length_append] at hlength
  rw [pointed, if_neg hd]
  show (stripZeros (Text.ofNat d.digits)).length ≤ _
  omega

namespace Binary64

variable {x : Binary64}

theorem toInt?_eq_none_iff (hx : x.IsFinite) : x.toInt? = none ↔ x.units % unitsPerOne ≠ 0 := by
  unfold toInt?
  by_cases hwhole : x.units % unitsPerOne = 0
  · rw [if_pos ⟨hx, hwhole⟩]
    exact iff_of_false nofun (absurd hwhole)
  · rw [if_neg fun h => hwhole h.2]
    exact iff_of_true rfl hwhole

/-- The shortest decimal is more than its double less one unit of the last digit. -/
theorem scaledNum_lt (hx : x.IsFinite) (tie : Tie) :
    x.scaledNum (x.shortestDecimal tie).exponent <
      ((x.shortestDecimal tie).digits + 1) * scaledDen (x.shortestDecimal tie).exponent := by
  have hfloor : x.scaledNum x.shortestExponent / scaledDen x.shortestExponent ≤
      (x.shortestDecimal tie).digits := by
    rcases decimalAt?_eq_some (decimalAt?_shortestExponent hx tie) with h | h
    · rw [h]
    · rw [h]
      exact Nat.le_succ _
  rw [exponent_shortestDecimal hx, ← Nat.div_lt_iff_lt_mul (scaledDen_pos _)]
  exact Nat.lt_succ_of_le hfloor

/-- A double of at least `10 ^ -m` has fewer than `m` zeros behind the point. -/
theorem lt_point (hx : x.IsFinite) (hzero : ¬x.IsZero) {m : Nat} (h : unitsPerOne ≤ x.units * 10 ^ m)
    (tie : Tie) : -(m : Int) < (x.shortestDecimal tie).pointed.point := by
  have hdigits := digits_ne_zero (toBinary64_shortestDecimal hx tie) hzero
  have hlt := scaledNum_lt hx tie
  rw [Decimal.point_pointed hdigits]
  generalize x.shortestDecimal tie = d at hdigits hlt
  by_contra hle
  have hpos := Text.length_ofNat_pos d.digits
  obtain ⟨j, hj⟩ := Int.eq_ofNat_of_zero_le (a := -d.exponent - m) (by omega)
  have hpower : d.digits + 1 ≤ 10 ^ j := (Text.length_ofNat_le_iff (by omega)).mp (by omega)
  have hneg : (-d.exponent).toNat = m + j := by omega
  have hnat : d.exponent.toNat = 0 := by omega
  refine Nat.not_lt_of_ge ?_ hlt
  rw [scaledNum, scaledDen, hneg, hnat, Nat.pow_eq, Nat.pow_eq, Nat.pow_zero, Nat.mul_one]
  calc (d.digits + 1) * unitsPerOne ≤ 10 ^ j * unitsPerOne := Nat.mul_le_mul_right _ hpower
    _ ≤ 10 ^ j * (x.units * 10 ^ m) := Nat.mul_le_mul_left _ h
    _ = x.units * 10 ^ (m + j) := by
        rw [Nat.pow_add]
        ring

/-- A whole decimal names a whole double. -/
theorem units_mod_of_toBinary64 (hx : x.IsFinite) {d : Decimal} (h : d.toBinary64 x.negative = x)
    (hexponent : 0 ≤ d.exponent) : x.units % unitsPerOne = 0 := by
  have hneg : (-d.exponent).toNat = 0 := by omega
  rw [Decimal.toBinary64_eq_exactRounding, Decimal.exactRounding, hneg] at h
  rw [← h] at hx ⊢
  exact units_mod_of_ofUnits hx

/-- The point of a double that is not whole stands in front of its last digit. -/
theorem point_lt_length (hx : x.IsFinite) (h : x.toInt? = none) (tie : Tie) :
    (x.shortestDecimal tie).pointed.point < (x.shortestDecimal tie).pointed.digits.length := by
  have hname := toBinary64_pointed_shortestDecimal hx tie
  by_contra hle
  refine (toInt?_eq_none_iff hx).mp h (units_mod_of_toBinary64 hx hname ?_)
  exact Int.sub_nonneg.mpr (Int.not_lt.mp hle)

/-- A double that is not whole is below 2⁵². -/
theorem units_lt_of_toInt? (hx : x.IsFinite) (h : x.toInt? = none) : x.units < 2 ^ 52 * unitsPerOne := by
  obtain ⟨u, hu, hunits⟩ := unitsPerOne_eq
  have hmod := (toInt?_eq_none_iff hx).mp h
  have hstep : x.step < u := by
    by_contra hge
    obtain ⟨k, hk⟩ := Nat.exists_eq_add_of_le (Nat.not_lt.mp hge)
    refine hmod ?_
    rw [units, hk, hunits, Nat.pow_eq, Nat.pow_add, Nat.mul_left_comm]
    exact Nat.mul_mod_right _ _
  rw [hunits, ← Nat.pow_add]
  exact Nat.lt_of_lt_of_le x.units_lt (Nat.pow_le_pow_right (by decide) (by omega))

/-- A double that is not whole has at most sixteen digits before the point. -/
theorem point_le (hx : x.IsFinite) (h : x.toInt? = none) (tie : Tie) :
    (x.shortestDecimal tie).pointed.point ≤ 16 := by
  obtain ⟨u, hu, hunits⟩ := unitsPerOne_eq
  have hname := toBinary64_shortestDecimal hx tie
  have hdigits := digits_ne_zero hname (not_isZero_of_toInt? h)
  have hsize := units_lt_of_toInt? hx h
  rw [Decimal.point_pointed hdigits]
  generalize x.shortestDecimal tie = d at hdigits hname
  by_contra hgt
  have hpower : 10 ^ (16 - d.exponent).toNat ≤ d.digits := by
    rcases Int.lt_or_le d.exponent 16 with hlt | hge
    · by_contra hless
      have hlength := (Text.length_ofNat_le_iff (by omega)).mpr (Nat.not_le.mp hless)
      omega
    · have hnone : (16 - d.exponent).toNat = 0 := by omega
      rw [hnone]
      exact Nat.pos_of_ne_zero hdigits
  -- A decimal with seventeen digits before the point is above every double that is not whole.
  rw [hunits, ← Nat.pow_add] at hsize
  refine Nat.not_le_of_gt (mul_scaledDen_lt hx hname hsize) ?_
  have hexponent : 16 + (-d.exponent).toNat ≤ (16 - d.exponent).toNat + d.exponent.toNat := by omega
  calc 2 ^ (52 + u) * 10 ^ (-d.exponent).toNat
      = 2 ^ 52 * 10 ^ (-d.exponent).toNat * unitsPerOne := by
        rw [hunits, Nat.pow_add]
        ring
    _ ≤ 10 ^ 16 * 10 ^ (-d.exponent).toNat * unitsPerOne :=
        Nat.mul_le_mul_right _ (Nat.mul_le_mul_right _ (by decide))
    _ ≤ 10 ^ (16 - d.exponent).toNat * 10 ^ d.exponent.toNat * unitsPerOne := by
        rw [← Nat.pow_add, ← Nat.pow_add]
        exact Nat.mul_le_mul_right _ (Nat.pow_le_pow_right (by decide) hexponent)
    _ ≤ d.digits * 10 ^ d.exponent.toNat * unitsPerOne :=
        Nat.mul_le_mul_right _ (Nat.mul_le_mul_right _ hpower)
    _ = d.digits * scaledDen d.exponent := by
        rw [scaledDen, Nat.pow_eq]
        ring

/-- A whole number that names a double below a power of two is below this power. -/
theorem lt_of_toBinary64_whole (hx : x.IsFinite) {n k : Nat}
    (hname : (⟨n, 0⟩ : Decimal).toBinary64 x.negative = x) (h : x.units < 2 ^ k * unitsPerOne) :
    n < 2 ^ k := by
  obtain ⟨u, -, hunits⟩ := unitsPerOne_eq
  rw [hunits, ← Nat.pow_add] at h
  have hlt := mul_scaledDen_lt hx hname h
  simp only [scaledDen, Int.neg_zero, Int.toNat_zero, Nat.pow_eq, Nat.pow_zero, Nat.mul_one] at hlt
  rw [Nat.pow_add, ← hunits] at hlt
  exact Nat.lt_of_mul_lt_mul_right hlt

/-- The decimal of a whole double without places names it. -/
theorem toBinary64_natAbs {n : Int} (h : x.toInt? = some n) :
    (⟨n.natAbs, 0⟩ : Decimal).toBinary64 x.negative = x := by
  obtain ⟨hx, hunits, -⟩ := units_of_toInt? h
  rw [Decimal.toBinary64_whole, ← hunits, ofUnits_units hx]

/-- The point of a whole double stands behind all its digits. -/
theorem length_le_point (hzero : ¬x.IsZero) {n : Int} (h : x.toInt? = some n) (tie : Tie) :
    (x.shortestDecimal tie).pointed.digits.length ≤ (x.shortestDecimal tie).pointed.point := by
  have hx := (units_of_toInt? h).1
  have hdigits := digits_ne_zero (toBinary64_shortestDecimal hx tie) hzero
  have hexponent : 0 ≤ (x.shortestDecimal tie).exponent :=
    exponent_le_shortestDecimal hx hzero tie (toBinary64_natAbs h)
  have hlength := Decimal.length_pointed_le hdigits
  rw [Decimal.point_pointed hdigits]
  omega

end Binary64

end JsonFilter
