import JsonFilter.Decimal.Scaled
import JsonFilter.Proofs.Binary64.Order
import JsonFilter.Proofs.Decimal.Reading

/-!
# Scaled decimals

What the scaling of the digits of a decimal gives: a finite double, and the nearest one where the digits and
the power of ten are doubles themselves.

* `ShortDecimal.isFinite_of_scaled?`: the result is finite;
* `ShortDecimal.scaled?_eq_toBinary64`: up to 2⁵³ and 10²² only the last operation rounds.
-/

namespace JsonFilter.ShortDecimal

/-! ## Range -/

theorem magnitude_powerOfTen_le {j k : Nat} (h : j ≤ k) :
    (powerOfTen j).magnitude ≤ (powerOfTen k).magnitude :=
  Binary64.magnitude_ofNat_le false (Nat.pow_le_pow_right (by decide) h)

/-- The powers of ten that are divided by are finite. -/
theorem isFinite_powerOfTen {k : Nat} (hk : k ≤ maxPower) : (powerOfTen k).IsFinite := by
  have hgreatest : (powerOfTen maxPower).magnitude < 2047 * 2 ^ 52 := by decide +kernel
  have hle := magnitude_powerOfTen_le hk
  exact Binary64.isFinite_iff_magnitude_lt.mpr (Nat.lt_of_le_of_lt hle hgreatest)

/-- The powers of ten that are divided by are not below one. -/
theorem unitsPerOne_le_units_powerOfTen {k : Nat} (hk : k ≤ maxPower) :
    Binary64.unitsPerOne ≤ (powerOfTen k).units :=
  Binary64.unitsPerOne_le_units_ofNat (Nat.ne_of_gt (Nat.pow_pos (by decide))) (isFinite_powerOfTen hk)

theorem isFinite_shrink {x : Binary64} (hx : x.IsFinite) (times : Nat) : (shrink times x).IsFinite := by
  induction times generalizing x with
  | zero => exact hx
  | succ times ih =>
    rw [shrink]
    split
    · exact hx
    · exact ih (Binary64.isFinite_div hx (unitsPerOne_le_units_powerOfTen (Nat.le_refl _)))

/-- What a decimal is read as is finite. -/
theorem isFinite_of_scaled? {negative : Bool} {d : ShortDecimal} {x : Binary64}
    (h : d.scaled? negative = some x) : x.IsFinite := by
  have hdigits : (Binary64.ofNat negative d.digits).IsFinite :=
    Binary64.isFinite_ofNat negative d.digits.isLt (by decide)
  unfold scaled? at h
  dsimp only at h
  split at h
  · obtain rfl := Option.some.inj h
    refine Binary64.isFinite_div (isFinite_shrink hdigits _) (unitsPerOne_le_units_powerOfTen ?_)
    -- So many divisions leave at most the greatest power.
    have hdivision := Nat.div_add_mod (d.exponent.natAbs - 1) maxPower
    have hrest : (d.exponent.natAbs - 1) % maxPower < maxPower := Nat.mod_lt _ (by decide)
    omega
  · split at h
    · obtain ⟨hfinite, h⟩ := Option.ite_none_right_eq_some.mp h
      obtain rfl := Option.some.inj h
      exact hfinite
    · obtain ⟨-, h⟩ := Option.ite_none_right_eq_some.mp h
      obtain rfl := Option.some.inj h
      exact hdigits

/-! ## Decimals that are read exactly -/

/-- Small powers of ten are doubles. -/
theorem units_powerOfTen {k : Nat} (hk : k ≤ 22) :
    (powerOfTen k).units = 10 ^ k * Binary64.unitsPerOne := by
  have hten : 10 ^ k = 5 ^ k * 2 ^ k := Nat.mul_pow 5 2 k
  have hfive : 5 ^ k < 2 ^ 53 := Nat.lt_of_le_of_lt (Nat.pow_le_pow_right (by decide) hk) (by decide)
  have hfinite : (powerOfTen k).IsFinite := isFinite_powerOfTen (Nat.le_trans hk (by decide))
  unfold powerOfTen at hfinite ⊢
  rw [Nat.pow_eq, hten] at hfinite ⊢
  exact Binary64.units_ofNat_mul_two_pow hfive hfinite

/-- Scaling leaves the sign alone. -/
theorem bne_negative_powerOfTen (negative : Bool) (k : Nat) :
    (negative != (powerOfTen k).negative) = negative := by
  rw [powerOfTen, Binary64.negative_ofNat, Bool.bne_false]

/-- The product of two doubles that are not rounded is rounded once. -/
theorem ofNat_mul_powerOfTen (negative : Bool) {n k : Nat} (hn : n < 2 ^ 53) (hk : k ≤ 22) :
    (Binary64.ofNat negative n).mul (powerOfTen k) = .ofNat negative (n * 10 ^ k) := by
  rw [Binary64.mul, bne_negative_powerOfTen, Binary64.negative_ofNat, Binary64.units_ofNat negative hn,
    units_powerOfTen hk]
  refine Binary64.ofUnits_congr negative Binary64.unitsPerOne_pos Nat.one_pos ?_
  ring

/-- The quotient of two doubles that are not rounded is rounded once. -/
theorem ofNat_div_powerOfTen (negative : Bool) {n k : Nat} (hn : n < 2 ^ 53) (hk : k ≤ 22) :
    (Binary64.ofNat negative n).div (powerOfTen k) =
      .ofUnits negative (n * Binary64.unitsPerOne) (10 ^ k) := by
  rw [Binary64.div, bne_negative_powerOfTen, Binary64.negative_ofNat, Binary64.units_ofNat negative hn,
    units_powerOfTen hk]
  exact Binary64.ofUnits_mul_right negative _ _ Binary64.unitsPerOne_pos

/-- Digits of 53 bits with at most 22 places or zeros are read as the double nearest to the decimal: only the
multiplication or the division rounds. -/
theorem scaled?_eq_toBinary64 (negative : Bool) {d : ShortDecimal} (hdigits : d.digits.val < 2 ^ 53)
    (hexponent : d.exponent.natAbs ≤ 22) :
    d.scaled? negative = some ((⟨d.digits, d.exponent⟩ : Decimal).toBinary64 negative) := by
  rw [Decimal.toBinary64_eq_exactRounding, Decimal.exactRounding]
  simp only [Nat.pow_eq]
  unfold scaled?
  dsimp only
  split
  · next hneg =>
    have htimes : (d.exponent.natAbs - 1) / maxPower = 0 := Nat.div_eq_of_lt (by unfold maxPower; omega)
    have hplaces : (-d.exponent).toNat = d.exponent.natAbs := by omega
    have hnone : d.exponent.toNat = 0 := by omega
    rw [htimes, Nat.mul_zero, Nat.sub_zero, shrink, ofNat_div_powerOfTen negative hdigits hexponent, hplaces,
      hnone, Nat.pow_zero, Nat.mul_one]
  · next hpos =>
    have hzeros : d.exponent.toNat = d.exponent.natAbs := by omega
    have hnone : (-d.exponent).toNat = 0 := by omega
    have hfinite : (Binary64.ofNat negative (d.digits * 10 ^ d.exponent.natAbs)).IsFinite := by
      have hten : 10 ^ d.exponent.natAbs < 2 ^ 74 :=
        Nat.lt_of_le_of_lt (Nat.pow_le_pow_right (by decide) hexponent) (by decide)
      refine Binary64.isFinite_ofNat negative (k := 53 + 74) ?_ (by decide)
      rw [Nat.pow_add]
      exact Nat.mul_lt_mul_of_lt_of_le hdigits (Nat.le_of_lt hten) (Nat.two_pow_pos _)
    rw [if_pos (by unfold maxPower; omega), hzeros, ofNat_mul_powerOfTen negative hdigits hexponent,
      if_pos hfinite, hnone, Nat.pow_zero]
    rfl

end JsonFilter.ShortDecimal
