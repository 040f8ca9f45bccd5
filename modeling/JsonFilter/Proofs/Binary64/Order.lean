import JsonFilter.Proofs.Binary64.Rounding

/-!
# The order of doubles

Doubles are ordered by their bits, signs apart, and rounding respects this order.

* `Binary64.magnitude`: the bits of a double without its sign;
* `roundQuotient_le_roundQuotient`: rounding to whole numbers respects the order of quotients;
* `Binary64.magnitude_ofUnits_le`: rounding to doubles does so as well;
* `Binary64.magnitude_lt_ofUnits_two_pow`: powers of two are above what is below them;
* `Binary64.isFinite_div`: dividing by one or more leaves a finite double.
-/

namespace JsonFilter

/-! ## Whole numbers -/

/-- Rounding to whole numbers respects the order of quotients with one denominator. -/
theorem roundQuotient_mono (tie : Tie) {m n : Nat} (d : Nat) (hle : m ≤ n) :
    roundQuotient tie m d ≤ roundQuotient tie n d := by
  have hor := roundQuotient_eq_or tie m d
  have hor' := roundQuotient_eq_or tie n d
  rcases Nat.lt_or_eq_of_le (Nat.div_le_div_right (c := d) hle) with hlt | heq
  · omega
  · have hmod : m % d ≤ n % d := by
      have hm := Nat.div_add_mod m d
      have hn := Nat.div_add_mod n d
      rw [heq] at hm
      omega
    -- The first goes down, or the second goes up, or both are the same half.
    by_cases hlow : 2 * (m % d) < d
    · have hdown : roundQuotient tie m d = m / d := if_pos hlow
      omega
    · have hlow' : ¬2 * (n % d) < d := by omega
      by_cases hhigh : d < 2 * (n % d)
      · have hup : roundQuotient tie n d = n / d + 1 := by
          unfold roundQuotient
          exact (if_neg hlow').trans (if_pos hhigh)
        omega
      · have hsame : m % d = n % d := by omega
        unfold roundQuotient
        rw [heq, hsame]

/-- Rounding to whole numbers respects the order of quotients. -/
theorem roundQuotient_le_roundQuotient (tie : Tie) {num den num' den' : Nat} (hden : 0 < den)
    (hden' : 0 < den') (h : num * den' ≤ num' * den) :
    roundQuotient tie num den ≤ roundQuotient tie num' den' := by
  rw [← roundQuotient_mul_right tie num den hden', ← roundQuotient_mul_right tie num' den' hden,
    Nat.mul_comm den' den]
  exact roundQuotient_mono tie _ h

namespace Binary64

/-! ## Bits -/

/-- The bits of a double without its sign; greater doubles have greater bits. -/
def magnitude (x : Binary64) : Nat :=
  x.exponent.val * 2 ^ 52 + x.fraction.val

theorem eq_of_magnitude_eq {x y : Binary64} (hsign : x.negative = y.negative)
    (h : x.magnitude = y.magnitude) : x = y := by
  obtain ⟨sign, ⟨e, he⟩, ⟨f, hf⟩⟩ := x
  obtain ⟨sign', ⟨e', he'⟩, ⟨f', hf'⟩⟩ := y
  simp only [magnitude] at h
  simp only [Nat.pow_eq] at hf hf'
  simp only [mk.injEq, Fin.mk.injEq]
  exact ⟨hsign, by omega, by omega⟩

/-- Steps and significands count on in the bits, up to infinity. -/
theorem magnitude_ofSteps (negative : Bool) (s step : Nat) :
    (ofSteps negative s step).magnitude = min (step * 2 ^ 52 + s) (2047 * 2 ^ 52) := by
  unfold ofSteps magnitude
  split
  · next h =>
    simp only [Nat.pow_eq] at h ⊢
    omega
  · next h =>
    simp only [Nat.pow_eq] at h
    show 2047 * 2 ^ 52 + 0 = _
    omega

theorem negative_ofUnits (negative : Bool) (num den : Nat) :
    (ofUnits negative num den).negative = negative := by
  unfold ofUnits ofSteps
  dsimp only
  split <;> rfl

theorem negative_ofNat (negative : Bool) (n : Nat) : (ofNat negative n).negative = negative :=
  negative_ofUnits _ _ _

/-- The bits of a rounding, where the step leaves 53 bits of the quotient. -/
theorem magnitude_ofUnits (negative : Bool) (num den : Nat) :
    (ofUnits negative num den).magnitude =
      min (((num / den).log2 - 52) * 2 ^ 52 +
        roundQuotient .toEven num (den * 2 ^ ((num / den).log2 - 52))) (2047 * 2 ^ 52) :=
  magnitude_ofSteps _ _ _

/-! ## Rounding -/

/-- Rounding to doubles respects the order of quotients. -/
theorem magnitude_ofUnits_le (negative negative' : Bool) {num den num' den' : Nat} (hden : 0 < den)
    (hden' : 0 < den') (h : num * den' ≤ num' * den) :
    (ofUnits negative num den).magnitude ≤ (ofUnits negative' num' den').magnitude := by
  have hfloor : num / den ≤ num' / den' := by
    rw [Nat.le_div_iff_mul_le hden']
    refine Nat.le_of_mul_le_mul_right (Nat.le_trans ?_ h) hden
    calc num / den * den' * den = num / den * den * den' := Nat.mul_right_comm _ _ _
      _ ≤ num * den' := Nat.mul_le_mul_right _ (Nat.div_mul_le_self _ _)
  have hlog : (num / den).log2 ≤ (num' / den').log2 := by
    by_cases hzero : num / den = 0
    · rw [hzero]
      exact Nat.zero_le _
    · have hpos : num' / den' ≠ 0 := Nat.ne_of_gt (Nat.lt_of_lt_of_le (Nat.pos_of_ne_zero hzero) hfloor)
      exact (Nat.le_log2 hpos).mpr (Nat.le_trans (Nat.log2_self_le hzero) hfloor)
  rw [magnitude_ofUnits, magnitude_ofUnits]
  refine min_le_min_right _ ?_
  rcases Nat.lt_or_ge ((num / den).log2 - 52) ((num' / den').log2 - 52) with hlt | hge
  -- A greater step leaves all its 53 bits, which are more than carrying out of the smaller step gives.
  · have hupper := roundQuotient_log2_le num den
    have hlong : 52 ≤ (num' / den').log2 := by omega
    have hlower := le_roundQuotient_log2 hlong
    omega
  · have hstep : (num' / den').log2 - 52 = (num / den).log2 - 52 := by omega
    rw [hstep]
    refine Nat.add_le_add_left (roundQuotient_le_roundQuotient .toEven
      (Nat.mul_pos hden (Nat.two_pow_pos _)) (Nat.mul_pos hden' (Nat.two_pow_pos _)) ?_) _
    rw [← Nat.mul_assoc, ← Nat.mul_assoc]
    exact Nat.mul_le_mul_right _ h

/-- The doubles for natural numbers are in their order. -/
theorem magnitude_ofNat_le (negative : Bool) {m n : Nat} (h : m ≤ n) :
    (ofNat negative m).magnitude ≤ (ofNat negative n).magnitude := by
  refine magnitude_ofUnits_le _ _ Nat.one_pos Nat.one_pos ?_
  rw [Nat.mul_one, Nat.mul_one]
  exact Nat.mul_le_mul_right _ h

/-- A finite double below a power of two is below what this power is rounded to. -/
theorem magnitude_lt_ofUnits_two_pow {x : Binary64} (hx : x.IsFinite) {j : Nat} (h : x.units < 2 ^ j) :
    x.magnitude < (ofUnits x.negative (2 ^ j) 1).magnitude := by
  have hfraction : x.fraction.val < 2 ^ 52 := x.fraction.isLt
  have hexponent : x.exponent.val < 2047 := Nat.lt_of_le_of_ne (Nat.le_of_lt_succ x.exponent.isLt) hx
  have hround : roundQuotient .toEven (2 ^ j) (1 * 2 ^ (j - 52)) = 2 ^ (j - (j - 52)) := by
    rw [Nat.one_mul, ← roundQuotient_mul .toEven (2 ^ (j - (j - 52))) (Nat.two_pow_pos (j - 52)),
      ← Nat.pow_add, Nat.sub_add_cancel (Nat.sub_le _ _)]
  rw [magnitude_ofUnits, Nat.div_one, Nat.log2_two_pow, hround, magnitude]
  by_cases hsubnormal : x.exponent.val = 0
  · have hunits : x.fraction.val < 2 ^ j := by
      simpa [units, significand, step, hsubnormal] using h
    rcases Nat.lt_or_ge j 52 with hj | hj
    · rw [Nat.sub_eq_zero_of_le (Nat.le_of_lt hj), Nat.sub_zero]
      omega
    · rw [Nat.sub_sub_self hj]
      omega
  · have hunits : 2 ^ (52 + x.step) ≤ x.units := by
      rw [units, significand, if_neg hsubnormal, Nat.pow_add]
      exact Nat.mul_le_mul_right _ (Nat.le_add_right _ _)
    have hj : 52 + x.step < j := (Nat.pow_lt_pow_iff_right (by decide)).mp (Nat.lt_of_le_of_lt hunits h)
    have hstep : x.exponent.val + 52 ≤ j := by
      rw [step] at hj
      omega
    rw [Nat.sub_sub_self (Nat.le_trans (Nat.le_add_left _ _) hstep)]
    clear hround hunits h
    omega

/-! ## Division -/

/-- The finite doubles are those below infinity. -/
theorem isFinite_iff_magnitude_lt {x : Binary64} : x.IsFinite ↔ x.magnitude < 2047 * 2 ^ 52 := by
  have hfraction : x.fraction.val < 2 ^ 52 := x.fraction.isLt
  have hexponent : x.exponent.val < 2048 := x.exponent.isLt
  rw [IsFinite, magnitude]
  omega

/-- A quotient by one or more is not above the dividend, so it is finite as well. -/
theorem isFinite_div {x y : Binary64} (hx : x.IsFinite) (hy : unitsPerOne ≤ y.units) :
    (x.div y).IsFinite := by
  have hle : (x.div y).magnitude ≤ (ofUnits x.negative x.units 1).magnitude := by
    refine magnitude_ofUnits_le _ _ (Nat.lt_of_lt_of_le unitsPerOne_pos hy) Nat.one_pos ?_
    rw [Nat.mul_one]
    exact Nat.mul_le_mul_left _ hy
  rw [ofUnits_units hx] at hle
  exact isFinite_iff_magnitude_lt.mpr (Nat.lt_of_le_of_lt hle (isFinite_iff_magnitude_lt.mp hx))

end Binary64

end JsonFilter
