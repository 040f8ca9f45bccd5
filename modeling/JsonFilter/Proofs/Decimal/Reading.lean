import JsonFilter.Decimal.Shortest
import JsonFilter.Proofs.Binary64.Rounding

/-!
# Decimals and doubles

The double that a decimal names depends on the value of the decimal only, and the shortest decimal of a
double names that double.

* `Decimal.toBinary64_eq_ofUnits`: a decimal names the rounding of its exact value, however great or small;
* `Decimal.toBinary64_shift`: zeros may be moved from the digits to the exponent;
* `Binary64.toBinary64_shortestDecimal`: the shortest decimal of a finite double names it.
-/

namespace JsonFilter

namespace Decimal

/-! ## Rounding without shortcuts -/

/-- The rounding of the exact value of a decimal. -/
def exactRounding (negative : Bool) (d : Decimal) : Binary64 :=
  .ofUnits negative (d.digits * Nat.pow 10 d.exponent.toNat * Binary64.unitsPerOne)
    (Nat.pow 10 (-d.exponent).toNat)

/-- A power of ten is at least as great as that power of eight. -/
theorem two_pow_le_ten_pow (k : Nat) : 2 ^ (3 * k) ≤ 10 ^ k := by
  rw [Nat.pow_mul]
  exact Nat.pow_le_pow_left (by decide) k

/-- A decimal names the rounding of its exact value: the shortcuts for great and for tiny decimals agree
with it. -/
theorem toBinary64_eq_exactRounding (negative : Bool) (d : Decimal) :
    d.toBinary64 negative = d.exactRounding negative := by
  obtain ⟨digits, exponent⟩ := d
  obtain ⟨u, hu, hunits⟩ := Binary64.unitsPerOne_eq
  unfold toBinary64 exactRounding
  simp only [Nat.pow_eq]
  split
  · next hdigits =>
    rw [hdigits, Nat.zero_mul, Nat.zero_mul, Binary64.ofUnits_eq_zero]
    exact Nat.pow_pos (by decide)
  · next hdigits =>
    have hpos : 1 ≤ digits := Nat.one_le_iff_ne_zero.mpr hdigits
    split
    -- A digit in front of so many zeros is beyond all finite doubles.
    · next hgreat =>
      have hten : 2 ^ (3 * exponent.toNat) ≤ 10 ^ exponent.toNat := two_pow_le_ten_pow _
      have hvalue : 2 ^ (3 * exponent.toNat + u) ≤ digits * 10 ^ exponent.toNat *
          Binary64.unitsPerOne := by
        rw [Nat.pow_add, hunits]
        exact Nat.mul_le_mul_right _ (Nat.le_trans hten (Nat.le_mul_of_pos_left _ hpos))
      have hnone : (-exponent).toNat = 0 := by omega
      rw [hnone, Nat.pow_zero, Binary64.ofUnits_eq_infinity negative (by rwa [Nat.div_one]) (by omega)]
    · split
      -- So few digits behind so many zeros are below half of the smallest double.
      · next htiny =>
        have hnone : exponent.toNat = 0 := by omega
        have hdigits : digits < 2 ^ (digits.log2 + 1) := Nat.lt_log2_self
        have hvalue : 2 * (digits * Binary64.unitsPerOne) < 2 ^ (digits.log2 + 1 + u + 1) := by
          rw [Nat.pow_succ', Nat.pow_add, hunits]
          exact Nat.mul_lt_mul_of_pos_left
            (Nat.mul_lt_mul_of_pos_right hdigits (Nat.two_pow_pos _)) Nat.two_pos
        rw [hnone, Nat.pow_zero, Nat.mul_one, Binary64.ofUnits_eq_zero]
        refine Nat.lt_of_lt_of_le hvalue (Nat.le_trans ?_ (two_pow_le_ten_pow _))
        exact Nat.pow_le_pow_right Nat.two_pos (by omega)
      · rfl

theorem toBinary64_of_digits_eq_zero (negative : Bool) {d : Decimal} (h : d.digits = 0) :
    d.toBinary64 negative = .zero negative :=
  if_pos h

/-- A whole number is rounded as it is. -/
theorem toBinary64_whole (negative : Bool) (n : Nat) :
    (⟨n, 0⟩ : Decimal).toBinary64 negative = .ofUnits negative (n * Binary64.unitsPerOne) 1 := by
  rw [toBinary64_eq_exactRounding]
  show Binary64.ofUnits negative (n * 1 * Binary64.unitsPerOne) 1 = _
  rw [Nat.mul_one]

/-! ## Zeros at the end of the digits -/

/-- Zeros may be moved from the digits of a decimal to its exponent. -/
theorem toBinary64_shift (negative : Bool) (digits k : Nat) (exponent : Int) :
    (⟨digits * 10 ^ k, exponent⟩ : Decimal).toBinary64 negative =
      (⟨digits, exponent + k⟩ : Decimal).toBinary64 negative := by
  rw [toBinary64_eq_exactRounding, toBinary64_eq_exactRounding]
  have hpower : 10 ^ k * 10 ^ exponent.toNat * 10 ^ (-(exponent + k)).toNat =
      10 ^ (exponent + k).toNat * 10 ^ (-exponent).toNat := by
    rw [← Nat.pow_add, ← Nat.pow_add, ← Nat.pow_add]
    exact congrArg (10 ^ ·) (by omega)
  unfold exactRounding
  simp only [Nat.pow_eq]
  apply Binary64.ofUnits_congr _ (Nat.pow_pos (by decide)) (Nat.pow_pos (by decide))
  calc digits * 10 ^ k * 10 ^ exponent.toNat * Binary64.unitsPerOne * 10 ^ (-(exponent + k)).toNat
      = digits * Binary64.unitsPerOne *
          (10 ^ k * 10 ^ exponent.toNat * 10 ^ (-(exponent + k)).toNat) := by ring
    _ = digits * 10 ^ (exponent + k).toNat * Binary64.unitsPerOne * 10 ^ (-exponent).toNat := by
        rw [hpower]
        ring

end Decimal

namespace Binary64

/-! ## Reading back -/

/-- The exact decimal of a finite double names it. -/
theorem toBinary64_exactDecimal {x : Binary64} (hx : x.IsFinite) :
    x.exactDecimal.toBinary64 x.negative = x := by
  obtain ⟨u, hu, hunits⟩ := unitsPerOne_eq
  have hpower : 2 ^ (x.step - 1074) * unitsPerOne = 2 ^ x.step * 2 ^ (1074 - x.step) := by
    rw [hunits, ← Nat.pow_add, ← Nat.pow_add]
    exact congrArg (2 ^ ·) (by omega)
  have hten : 10 ^ (1074 - x.step) = 5 ^ (1074 - x.step) * 2 ^ (1074 - x.step) :=
    Nat.mul_pow 5 2 _
  rw [Decimal.toBinary64_eq_exactRounding]
  conv_rhs => rw [← ofUnits_units hx]
  unfold Decimal.exactRounding exactDecimal
  simp only [Nat.pow_eq, Int.neg_neg, Int.toNat_natCast, Int.toNat_neg_natCast, units]
  apply ofUnits_congr _ (Nat.pow_pos (by decide)) Nat.one_pos
  calc x.significand * 2 ^ (x.step - 1074) * 5 ^ (1074 - x.step) * 10 ^ 0 * unitsPerOne * 1
      = x.significand * 5 ^ (1074 - x.step) * (2 ^ (x.step - 1074) * unitsPerOne) := by ring
    _ = x.significand * 2 ^ x.step * 10 ^ (1074 - x.step) := by
        rw [hpower, hten]
        ring

/-- A decimal that names a double other than a zero has digits other than zero. -/
theorem digits_ne_zero {x : Binary64} {d : Decimal} (h : d.toBinary64 x.negative = x)
    (hzero : ¬x.IsZero) : d.digits ≠ 0 := by
  intro hd
  rw [Decimal.toBinary64_of_digits_eq_zero _ hd] at h
  rw [← h] at hzero
  exact hzero (isZero_zero _)

/-- A decimal that is found at an exponent names the double. -/
theorem isNamedBy_of_decimalAt? {x : Binary64} {tie : Tie} {k : Int} {d : Decimal}
    (h : x.decimalAt? tie k = some d) : x.isNamedBy d = true := by
  unfold decimalAt? at h
  dsimp only at h
  split at h
  -- If both neighbours name the double, then so does the one that the rounding takes.
  · next hfloor hnext =>
    obtain rfl := Option.some.inj h
    rcases roundQuotient_eq_or tie (x.scaledNum k) (scaledDen k) with hround | hround
    · exact (congrArg (fun n => x.isNamedBy ⟨n, k⟩) hround).trans hfloor
    · exact (congrArg (fun n => x.isNamedBy ⟨n, k⟩) hround).trans hnext
  · next hfloor _ =>
    obtain rfl := Option.some.inj h
    exact hfloor
  · next _ hnext =>
    obtain rfl := Option.some.inj h
    exact hnext
  · cases h

/-- The shortest decimal of a finite double names it. -/
theorem toBinary64_shortestDecimal {x : Binary64} (hx : x.IsFinite) (tie : Tie) :
    (x.shortestDecimal tie).toBinary64 x.negative = x := by
  unfold shortestDecimal
  dsimp only
  cases h : x.decimalAt? tie
      (x.leadingExponent - firstTrue (fun n => x.hasDecimalAt (x.leadingExponent - n)) 5 0) with
  | none => exact toBinary64_exactDecimal hx
  | some d => exact of_decide_eq_true (isNamedBy_of_decimalAt? h)

end Binary64

end JsonFilter
