import JsonFilter.Binary64.Rounding
import JsonFilter.Proofs.Value.Equality
import Mathlib.Tactic.Ring

/-!
# Exact rounding

Rounding looks at a quotient only, and leaves alone what is a number of the format.

* `Binary64.ofUnits_congr`: equal quotients have the same rounding;
* `Binary64.ofUnits_units`: a finite number is the rounding of its own size;
* `Binary64.isFinite_ofUnits`: no rounding of a quotient in range is infinite;
* `Binary64.ofInt_of_toInt64?`: a whole number is found again from its integer.
-/

namespace JsonFilter

/-- Rounding does not change if both parts of a quotient are multiplied. -/
theorem roundQuotient_mul_right (tie : Tie) (num den : Nat) {k : Nat} (hk : 0 < k) :
    roundQuotient tie (num * k) (den * k) = roundQuotient tie num den := by
  unfold roundQuotient
  rw [Nat.mul_div_mul_right _ _ hk, Nat.mul_mod_mul_right]
  simp only [← Nat.mul_assoc, Nat.mul_lt_mul_right hk]

/-- What is less than half of the denominator is rounded to zero. -/
theorem roundQuotient_eq_zero (tie : Tie) {num den : Nat} (h : 2 * num < den) :
    roundQuotient tie num den = 0 := by
  have hlt : num < den := by omega
  unfold roundQuotient
  rw [Nat.mod_eq_of_lt hlt, Nat.div_eq_of_lt hlt]
  exact if_pos h

namespace Binary64

theorem log2_le_of_lt {n k : Nat} (h : n < Nat.pow 2 (k + 1)) : n.log2 ≤ k := by
  by_cases hn : n = 0
  · subst hn
    exact Nat.zero_le k
  · exact Nat.le_of_lt_succ ((Nat.log2_lt hn).mpr h)

/-- How many units one holds is a power of two.  The exponent is kept apart, so that the power is not
computed where only its exponent matters. -/
theorem unitsPerOne_eq : ∃ k, k = 1074 ∧ unitsPerOne = 2 ^ k :=
  ⟨1074, rfl, by decide +kernel⟩

theorem unitsPerOne_pos : 0 < unitsPerOne := by
  decide +kernel

/-! ## Quotients -/

theorem ofUnits_mul_right (negative : Bool) (num den : Nat) {k : Nat} (hk : 0 < k) :
    ofUnits negative (num * k) (den * k) = ofUnits negative num den := by
  unfold ofUnits
  simp only [Nat.mul_div_mul_right _ _ hk, Nat.mul_right_comm den k, roundQuotient_mul_right _ _ _ hk]

/-- Equal quotients have the same rounding. -/
theorem ofUnits_congr (negative : Bool) {num den num' den' : Nat} (hden : 0 < den)
    (hden' : 0 < den') (h : num * den' = num' * den) :
    ofUnits negative num den = ofUnits negative num' den' := by
  rw [← ofUnits_mul_right negative num den hden', h, Nat.mul_comm den den',
    ofUnits_mul_right negative num' den' hden]

/-! ## Numbers of the format -/

/-- A significand has at most 53 bits, and fewer only in the smallest step. -/
theorem significand_lt (x : Binary64) : x.significand < Nat.pow 2 53 := by
  have hfraction : x.fraction.val < Nat.pow 2 52 := x.fraction.isLt
  have hpow : Nat.pow 2 53 = 2 * Nat.pow 2 52 := rfl
  rw [significand]
  split <;> omega

theorem le_significand {x : Binary64} (h : x.step ≠ 0) : Nat.pow 2 52 ≤ x.significand := by
  have hexponent : x.exponent.val ≠ 0 := by
    rw [step] at h
    omega
  rw [significand, if_neg hexponent]
  exact Nat.le_add_right _ _

/-- A size of 53 bits in front of the last step, or of fewer in the smallest step, tells this step. -/
theorem log2_sub_eq {n step : Nat} (hupper : n < 2 ^ (53 + step))
    (hlower : step ≠ 0 → 2 ^ (52 + step) ≤ n) : n.log2 - 52 = step := by
  by_cases hstep : step = 0
  · subst hstep
    have hlog : n.log2 ≤ 52 := log2_le_of_lt hupper
    omega
  · have hpos : n ≠ 0 := Nat.ne_of_gt (Nat.lt_of_lt_of_le (Nat.two_pow_pos _) (hlower hstep))
    have hlog : n.log2 < 53 + step := (Nat.log2_lt hpos).mpr hupper
    have hlog' : 52 + step ≤ n.log2 := (Nat.le_log2 hpos).mpr (hlower hstep)
    omega

theorem units_lt (x : Binary64) : x.units < 2 ^ (53 + x.step) := by
  rw [units, Nat.pow_add]
  exact Nat.mul_lt_mul_of_pos_right x.significand_lt (Nat.two_pow_pos _)

theorem le_units {x : Binary64} (h : x.step ≠ 0) : 2 ^ (52 + x.step) ≤ x.units := by
  rw [units, Nat.pow_add]
  exact Nat.mul_le_mul_right _ (le_significand h)

/-- The length of the size of a number tells the step of its last bit. -/
theorem log2_units_sub (x : Binary64) : x.units.log2 - 52 = x.step :=
  log2_sub_eq x.units_lt le_units

/-- A finite number is found again from its significand and its step. -/
theorem ofSteps_significand {x : Binary64} (hx : x.IsFinite) :
    ofSteps x.negative x.significand x.step = x := by
  have hfraction : x.fraction.val < 2 ^ 52 := x.fraction.isLt
  have hexponent : x.exponent.val < 2048 := x.exponent.isLt
  have hmax : x.exponent.val ≠ 2047 := hx
  have hdiv : x.step + x.significand / Nat.pow 2 52 = x.exponent.val := by
    simp only [step, significand, Nat.pow_eq]
    split <;> omega
  have hmod : x.significand % Nat.pow 2 52 = x.fraction.val := by
    simp only [significand, Nat.pow_eq]
    split <;> omega
  rw [ofSteps, dif_pos (by omega)]
  simp only [hdiv, hmod]

/-- A finite number is the rounding of its own size. -/
theorem ofUnits_units {x : Binary64} (hx : x.IsFinite) : ofUnits x.negative x.units 1 = x := by
  have hround : roundQuotient .toEven x.units (Nat.pow 2 x.step) = x.significand :=
    roundQuotient_mul _ _ (Nat.two_pow_pos _)
  rw [ofUnits, Nat.div_one, log2_units_sub, Nat.one_mul, hround]
  exact ofSteps_significand hx

/-- What is above a finite number by an eighth of its last bit is rounded to it. -/
theorem ofUnits_add_eighth {x : Binary64} (hx : x.IsFinite) :
    ofUnits x.negative (8 * x.units + 2 ^ x.step) 8 = x := by
  have hsum : 8 * x.units + 2 ^ x.step = (8 * x.significand + 1) * 2 ^ x.step := by
    rw [units, Nat.pow_eq]
    ring
  have hupper : (8 * x.units + 2 ^ x.step) / 8 < 2 ^ (53 + x.step) := by
    have hlt : 8 * x.significand + 1 < 2 ^ 53 * 8 := by
      have hsignificand := x.significand_lt
      simp only [Nat.pow_eq] at hsignificand
      omega
    rw [Nat.div_lt_iff_lt_mul (by decide), hsum, Nat.pow_add, Nat.mul_right_comm]
    exact Nat.mul_lt_mul_of_pos_right hlt (Nat.two_pow_pos _)
  have hlower : x.step ≠ 0 → 2 ^ (52 + x.step) ≤ (8 * x.units + 2 ^ x.step) / 8 := by
    intro hstep
    rw [Nat.le_div_iff_mul_le (by decide), Nat.mul_comm]
    exact Nat.le_add_right_of_le (Nat.mul_le_mul_left _ (le_units hstep))
  have hround : roundQuotient .toEven (8 * x.units + 2 ^ x.step) (8 * Nat.pow 2 x.step) =
      x.significand := by
    rw [hsum, Nat.pow_eq, roundQuotient_mul_right _ _ _ (Nat.two_pow_pos _)]
    unfold roundQuotient
    rw [Nat.mul_add_div (by decide), Nat.mul_add_mod]
    rfl
  rw [ofUnits, log2_sub_eq hupper hlower, hround]
  exact ofSteps_significand hx

/-! ## Range -/

/-- The step leaves at most 53 bits of the quotient, and rounding up may carry into one more. -/
theorem roundQuotient_log2_le (num den : Nat) :
    roundQuotient .toEven num (den * 2 ^ ((num / den).log2 - 52)) ≤ 2 ^ 53 := by
  have hfloor : num / (den * 2 ^ ((num / den).log2 - 52)) < 2 ^ 53 := by
    rw [← Nat.div_div_eq_div_mul, Nat.div_lt_iff_lt_mul (Nat.two_pow_pos _), ← Nat.pow_add]
    exact Nat.lt_of_lt_of_le Nat.lt_log2_self (Nat.pow_le_pow_right (by decide) (by omega))
  rcases roundQuotient_eq_or .toEven num (den * 2 ^ ((num / den).log2 - 52)) with h | h <;> omega

/-- The step leaves no fewer than 53 bits, unless it is the smallest. -/
theorem le_roundQuotient_log2 {num den : Nat} (h : 52 ≤ (num / den).log2) :
    2 ^ 52 ≤ roundQuotient .toEven num (den * 2 ^ ((num / den).log2 - 52)) := by
  have hpos : num / den ≠ 0 := by
    rintro hzero
    rw [hzero] at h
    exact absurd h (by decide)
  have hfloor : 2 ^ 52 ≤ num / (den * 2 ^ ((num / den).log2 - 52)) := by
    rw [← Nat.div_div_eq_div_mul, Nat.le_div_iff_mul_le (Nat.two_pow_pos _), ← Nat.pow_add,
      Nat.add_sub_cancel' h]
    exact Nat.log2_self_le hpos
  rcases roundQuotient_eq_or .toEven num (den * 2 ^ ((num / den).log2 - 52)) with h | h <;> omega

/-- The rounding of a quotient with at most 2097 bits is finite. -/
theorem isFinite_ofUnits (negative : Bool) {num den k : Nat} (h : num / den < Nat.pow 2 (k + 1))
    (hk : k ≤ 2096) : (ofUnits negative num den).IsFinite := by
  have hlog := log2_le_of_lt h
  have hround := roundQuotient_log2_le num den
  have hcarry : roundQuotient .toEven num (den * 2 ^ ((num / den).log2 - 52)) / 2 ^ 52 ≤ 2 := by
    omega
  unfold ofUnits
  simp only [Nat.pow_eq]
  rw [ofSteps, dif_pos (by simp only [Nat.pow_eq]; omega)]
  show (num / den).log2 - 52 + _ / 2 ^ 52 ≠ 2047
  omega

/-- What is beyond all finite doubles is rounded to an infinity. -/
theorem ofUnits_eq_infinity (negative : Bool) {num den k : Nat} (h : 2 ^ k ≤ num / den)
    (hk : 2099 ≤ k) : ofUnits negative num den = infinity negative := by
  have hpos : num / den ≠ 0 := Nat.ne_of_gt (Nat.lt_of_lt_of_le (Nat.two_pow_pos k) h)
  have hlog : k ≤ (num / den).log2 := (Nat.le_log2 hpos).mpr h
  unfold ofUnits ofSteps
  refine dif_neg fun hlt => ?_
  have := Nat.lt_of_le_of_lt (Nat.le_add_right _ _) hlt
  omega

/-- What is below half of the smallest double is rounded to zero. -/
theorem ofUnits_eq_zero (negative : Bool) {num den : Nat} (h : 2 * num < den) :
    ofUnits negative num den = zero negative := by
  have hfloor : num / den = 0 := Nat.div_eq_of_lt (by omega)
  have hround : roundQuotient .toEven num (den * 1) = 0 :=
    roundQuotient_eq_zero _ (by rwa [Nat.mul_one])
  unfold ofUnits
  rw [hfloor]
  show ofSteps negative (roundQuotient .toEven num (den * 1)) 0 = _
  rw [hround]
  rfl

/-- Natural numbers of at most 1023 bits are in range. -/
theorem isFinite_ofNat (negative : Bool) {n k : Nat} (h : n < 2 ^ k) (hk : k ≤ 1023) :
    (ofNat negative n).IsFinite := by
  obtain ⟨u, hu, hunits⟩ := unitsPerOne_eq
  have hlt : n * unitsPerOne / 1 < 2 ^ (k + u) := by
    rw [Nat.div_one, Nat.pow_add, ← hunits]
    exact Nat.mul_lt_mul_of_pos_right h unitsPerOne_pos
  rw [← Nat.sub_add_cancel (n := k + u) (m := 1) (by omega)] at hlt
  exact isFinite_ofUnits negative hlt (by omega)

theorem ofInt_eq_ofNat (n : Int) : ofInt n = ofNat (decide (n < 0)) n.natAbs :=
  rfl

/-- Whole numbers of 64 bits, with or without sign, are in range. -/
theorem isFinite_ofInt {n : Int} (hlow : -Nat.pow 2 63 ≤ n) (hhigh : n < Nat.pow 2 64) :
    (ofInt n).IsFinite := by
  have hsize : n.natAbs < 2 ^ 64 := by
    simp only [Nat.pow_eq] at hlow hhigh
    omega
  exact isFinite_ofNat _ hsize (by decide)

/-! ## Exact values -/

/-- A finite number has the significand and the step that it was made of, but for a carry that has doubled
the step. -/
theorem units_ofSteps {negative : Bool} {s step : Nat} (hx : (ofSteps negative s step).IsFinite)
    (hs : s ≤ 2 ^ 53) (hlarge : step ≠ 0 → 2 ^ 52 ≤ s) :
    (ofSteps negative s step).units = s * 2 ^ step := by
  unfold ofSteps at hx ⊢
  split
  · simp only [units, significand, Binary64.step, Nat.pow_eq]
    rcases Nat.lt_or_ge s (2 ^ 52) with hlt | hge
    · have hstep : step = 0 := by
        by_contra hne
        exact absurd (hlarge hne) (Nat.not_le_of_gt hlt)
      subst hstep
      rw [Nat.div_eq_of_lt hlt, Nat.mod_eq_of_lt hlt]
      rfl
    · rcases Nat.lt_or_eq_of_le hs with hlt | rfl
      · have hdiv : s / 2 ^ 52 = 1 := by omega
        have hmod : s % 2 ^ 52 = s - 2 ^ 52 := by omega
        rw [hdiv, hmod, if_neg (Nat.succ_ne_zero _), Nat.add_sub_cancel' hge]
        rfl
      · show 2 ^ 52 * 2 ^ (step + 1) = 2 ^ 53 * 2 ^ step
        ring
  · next h =>
    rw [dif_neg h] at hx
    exact absurd rfl hx

/-- The size of a rounding is a multiple of the step that leaves 53 bits of the quotient. -/
theorem units_ofUnits {negative : Bool} {num den : Nat} (hx : (ofUnits negative num den).IsFinite) :
    (ofUnits negative num den).units =
      roundQuotient .toEven num (den * 2 ^ ((num / den).log2 - 52)) * 2 ^ ((num / den).log2 - 52) :=
  units_ofSteps hx (roundQuotient_log2_le num den) fun hstep => le_roundQuotient_log2 (by omega)

/-- The rounding of a natural number other than zero is not below one. -/
theorem unitsPerOne_le_units_ofNat {negative : Bool} {n : Nat} (hn : n ≠ 0)
    (hx : (ofNat negative n).IsFinite) : unitsPerOne ≤ (ofNat negative n).units := by
  obtain ⟨u, hu, hunits⟩ := unitsPerOne_eq
  have hpos : n * unitsPerOne ≠ 0 := Nat.mul_ne_zero hn (Nat.ne_of_gt unitsPerOne_pos)
  have hlog : u ≤ (n * unitsPerOne / 1).log2 := by
    rw [Nat.div_one, Nat.le_log2 hpos, ← hunits]
    exact Nat.le_mul_of_pos_left _ (Nat.pos_of_ne_zero hn)
  unfold ofNat at hx ⊢
  rw [units_ofUnits hx]
  have hround : 2 ^ 52 ≤ roundQuotient .toEven (n * unitsPerOne)
      (1 * 2 ^ ((n * unitsPerOne / 1).log2 - 52)) := le_roundQuotient_log2 (by omega)
  generalize (n * unitsPerOne / 1).log2 = log at hlog hround ⊢
  calc unitsPerOne = 2 ^ u := hunits
    _ ≤ 2 ^ (52 + (log - 52)) := Nat.pow_le_pow_right Nat.two_pos (by omega)
    _ = 2 ^ 52 * 2 ^ (log - 52) := Nat.pow_add _ _ _
    _ ≤ _ := Nat.mul_le_mul_right _ hround

/-- A natural number of 53 bits in front of some zeros is not changed by the rounding. -/
theorem units_ofNat_mul_two_pow {negative : Bool} {m j : Nat} (hm : m < 2 ^ 53)
    (hx : (ofNat negative (m * 2 ^ j)).IsFinite) :
    (ofNat negative (m * 2 ^ j)).units = m * 2 ^ j * unitsPerOne := by
  obtain ⟨u, hu, hunits⟩ := unitsPerOne_eq
  have hsize : m * 2 ^ j * unitsPerOne = m * 2 ^ (j + u) := by
    rw [hunits, Nat.mul_assoc, ← Nat.pow_add]
  have hlog : (m * 2 ^ (j + u)).log2 ≤ 52 + (j + u) := by
    have hlt : m * 2 ^ (j + u) < 2 ^ 53 * 2 ^ (j + u) := Nat.mul_lt_mul_of_pos_right hm (Nat.two_pow_pos _)
    rw [← Nat.pow_add, Nat.add_comm 53] at hlt
    exact log2_le_of_lt (Nat.lt_of_lt_of_eq hlt (congrArg (2 ^ ·) (by omega)))
  unfold ofNat at hx ⊢
  rw [units_ofUnits hx, Nat.div_one, Nat.one_mul, hsize]
  -- The step is one of the zeros.
  obtain ⟨k, hk⟩ := Nat.exists_eq_add_of_le (m := (m * 2 ^ (j + u)).log2 - 52) (n := j + u) (by omega)
  generalize (m * 2 ^ (j + u)).log2 - 52 = step at hk
  rw [hk, Nat.add_comm step, Nat.pow_add, ← Nat.mul_assoc]
  exact congrArg (· * 2 ^ step) (roundQuotient_mul .toEven (m * 2 ^ k) (Nat.two_pow_pos step))

/-- A natural number of 53 bits is not changed by the rounding. -/
theorem units_ofNat (negative : Bool) {n : Nat} (hn : n < 2 ^ 53) :
    (ofNat negative n).units = n * unitsPerOne := by
  have hfinite := isFinite_ofNat negative hn (by decide)
  rw [← Nat.mul_one n, ← Nat.pow_zero 2] at hfinite ⊢
  exact units_ofNat_mul_two_pow hn hfinite

/-- A finite number that is the rounding of a whole number is whole. -/
theorem units_mod_of_ofUnits {negative : Bool} {n : Nat}
    (hx : (ofUnits negative (n * unitsPerOne) 1).IsFinite) :
    (ofUnits negative (n * unitsPerOne) 1).units % unitsPerOne = 0 := by
  obtain ⟨u, hu, hunits⟩ := unitsPerOne_eq
  rw [units_ofUnits hx, Nat.div_one, Nat.one_mul]
  generalize (n * unitsPerOne).log2 - 52 = step
  rcases Nat.le_total u step with hle | hle
  · obtain ⟨k, rfl⟩ := Nat.exists_eq_add_of_le hle
    rw [hunits, Nat.pow_add, Nat.mul_left_comm]
    exact Nat.mul_mod_right _ _
  -- A step below one leaves the whole number as it is.
  · obtain ⟨k, rfl⟩ := Nat.exists_eq_add_of_le hle
    have hround : roundQuotient .toEven (n * unitsPerOne) (2 ^ step) = n * 2 ^ k := by
      rw [hunits, Nat.pow_add, Nat.mul_comm (2 ^ step), ← Nat.mul_assoc]
      exact roundQuotient_mul _ _ (Nat.two_pow_pos _)
    rw [hround, Nat.mul_assoc, ← Nat.pow_add, Nat.add_comm k, ← hunits]
    exact Nat.mul_mod_left _ _

/-! ## Whole numbers -/

/-- Nothing is rounded to zero. -/
theorem ofUnits_zero (negative : Bool) : ofUnits negative 0 1 = zero negative := by
  have hunits : (zero negative).units = 0 := Nat.zero_mul _
  have h := ofUnits_units (x := zero negative) (by decide +revert)
  rwa [hunits] at h

theorem isZero_of_units_eq_zero {x : Binary64} (h : x.units = 0) : x.IsZero := by
  have hsignificand : x.significand = 0 :=
    (Nat.mul_eq_zero.mp h).resolve_right (Nat.ne_of_gt (Nat.two_pow_pos _))
  have hpos : 0 < Nat.pow 2 52 := Nat.two_pow_pos _
  rw [significand] at hsignificand
  split at hsignificand
  · next hexponent => exact ⟨hexponent, hsignificand⟩
  · omega

theorem units_eq_zero_of_isZero {x : Binary64} (h : x.IsZero) : x.units = 0 := by
  rw [units, significand, if_pos h.1, h.2, Nat.zero_mul]

/-- A number that equals an integer has its size and, unless it is a zero, its sign. -/
theorem units_of_toInt? {x : Binary64} {n : Int} (h : x.toInt? = some n) :
    x.IsFinite ∧ x.units = n.natAbs * unitsPerOne ∧ (n ≠ 0 → x.negative = decide (n < 0)) := by
  obtain ⟨⟨hfinite, hwhole⟩, h⟩ := Option.ite_none_right_eq_some.mp h
  have hunits : x.units / unitsPerOne * unitsPerOne = x.units :=
    Nat.div_mul_cancel (Nat.dvd_of_mod_eq_zero hwhole)
  generalize x.units / unitsPerOne = q at h hunits
  cases hsign : x.negative with
  | true =>
    obtain rfl : -(q : Int) = n := by simpa [hsign] using h
    refine ⟨hfinite, by rw [Int.natAbs_neg, Int.natAbs_natCast, hunits], fun hn => ?_⟩
    exact (decide_eq_true (by omega)).symm
  | false =>
    obtain rfl : (q : Int) = n := by simpa [hsign] using h
    refine ⟨hfinite, by rw [Int.natAbs_natCast, hunits], fun _ => ?_⟩
    exact (decide_eq_false (by omega)).symm

/-- A number that is whole is found again from its integer, but for the sign of a zero. -/
theorem ofInt_of_toInt? {x : Binary64} {n : Int} (h : x.toInt? = some n) :
    ofInt n = x.unsignZero := by
  obtain ⟨hfinite, hunits, hsign⟩ := units_of_toInt? h
  by_cases hn : n = 0
  · subst hn
    rw [Int.natAbs_zero, Nat.zero_mul] at hunits
    rw [unsignZero_of_isZero (isZero_of_units_eq_zero hunits), ofInt, Int.natAbs_zero, Nat.zero_mul]
    exact ofUnits_zero _
  · have hpos : x.units ≠ 0 := by
      rw [hunits]
      exact Nat.mul_ne_zero (Int.natAbs_ne_zero.mpr hn) (Nat.ne_of_gt unitsPerOne_pos)
    rw [unsignZero_of_not_isZero (mt units_eq_zero_of_isZero hpos), ofInt, ← hunits, ← hsign hn]
    exact ofUnits_units hfinite

/-- The integer below 2⁶³ has the same rounding. -/
theorem ofInt_two_pow_63_sub_one : ofInt (Nat.pow 2 63 - 1) = ofInt (Nat.pow 2 63) := by
  decide +kernel

/-- A whole number is found again from its signed 64-bit integer, even if that had to be brought down. -/
theorem ofInt_of_toInt64? {x : Binary64} {n : Int} (h : x.toInt64? = some n) :
    ofInt n = x.unsignZero := by
  obtain ⟨m, hm, h⟩ := Option.bind_eq_some_iff.mp h
  obtain ⟨hrange, h⟩ := Option.ite_none_right_eq_some.mp h
  obtain rfl := Option.some.inj h
  rw [← ofInt_of_toInt? hm]
  -- Only the number 2⁶³ is brought down, and the integer below it rounds to it.
  by_cases hlast : m = Nat.pow 2 63
  · rw [hlast, min_eq_right (by omega)]
    exact ofInt_two_pow_63_sub_one
  · rw [min_eq_left (by omega)]

theorem isFinite_of_isZero {x : Binary64} (h : x.IsZero) : x.IsFinite := by
  rw [IsFinite, h.1]
  decide

/-- A zero of either sign equals the integer zero. -/
theorem toInt?_of_isZero {x : Binary64} (h : x.IsZero) : x.toInt? = some 0 := by
  unfold toInt?
  rw [units_eq_zero_of_isZero h, if_pos ⟨isFinite_of_isZero h, Nat.zero_mod _⟩, Nat.zero_div]
  cases x.negative <;> rfl

/-- A number that is not whole is not a zero. -/
theorem not_isZero_of_toInt? {x : Binary64} (h : x.toInt? = none) : ¬x.IsZero := by
  intro hzero
  rw [toInt?_of_isZero hzero] at h
  cases h

theorem toInt64?_of_isZero {x : Binary64} (h : x.IsZero) : x.toInt64? = some 0 := by
  rw [toInt64?, toInt?_of_isZero h]
  rfl

theorem not_isZero_of_toInt64? {x : Binary64} (h : x.toInt64? = none) : ¬x.IsZero := by
  intro hzero
  rw [toInt64?_of_isZero hzero] at h
  cases h

end Binary64

end JsonFilter
