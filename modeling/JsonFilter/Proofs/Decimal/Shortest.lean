import JsonFilter.Proofs.Binary64.Order
import JsonFilter.Proofs.Decimal.Reading

/-!
# The shortest decimals

Decimals respect the order of the doubles that they name.  So the decimals with one exponent that name a
double stand around it without gaps, a finer exponent has one whenever a coarser has, and halving finds the
coarsest exponent that has one.

* `Binary64.hasDecimalAt_iff`: the two neighbours of a double decide whether an exponent has a decimal;
* `Binary64.hasDecimalAt_of_le`: finer exponents have decimals if coarser have;
* `Binary64.exponent_le_leadingExponent`, `Binary64.hasDecimalAt_leadingExponent_sub`: where the coarsest is;
* `Binary64.decimalAt?_shortestDecimal`, `Binary64.exponent_le_shortestDecimal`: the shortest decimal is found
  there, and no decimal that names the double has a coarser exponent;
* `Binary64.shortestDecimal_toEven_ne_away_iff`: where the choice between two of them matters.
-/

namespace JsonFilter

theorem Decimal.negative_toBinary64 (negative : Bool) (d : Decimal) :
    (d.toBinary64 negative).negative = negative := by
  rw [toBinary64_eq_exactRounding]
  exact Binary64.negative_ofUnits _ _ _

namespace Binary64

variable {x : Binary64}

/-! ## Order -/

theorem scaledDen_pos (k : Int) : 0 < scaledDen k :=
  Nat.mul_pos unitsPerOne_pos (Nat.pow_pos (by decide))

/-- A decimal names the rounding of its digits, scaled as its exponent says. -/
theorem toBinary64_eq_ofUnits (negative : Bool) (n : Nat) (k : Int) :
    (⟨n, k⟩ : Decimal).toBinary64 negative =
      ofUnits negative (n * scaledDen k) (10 ^ (-k).toNat) := by
  have hscaled : n * Nat.pow 10 k.toNat * unitsPerOne = n * scaledDen k := by
    rw [scaledDen]
    ring
  rw [Decimal.toBinary64_eq_exactRounding, Decimal.exactRounding, hscaled]
  rfl

/-- A decimal that is not above a double names none that is above it. -/
theorem magnitude_toBinary64_le (hx : x.IsFinite) (negative : Bool) {n : Nat} {k : Int}
    (h : n * scaledDen k ≤ x.scaledNum k) :
    ((⟨n, k⟩ : Decimal).toBinary64 negative).magnitude ≤ x.magnitude := by
  rw [toBinary64_eq_ofUnits]
  conv_rhs => rw [← ofUnits_units hx]
  exact magnitude_ofUnits_le _ _ (Nat.pow_pos (by decide)) Nat.one_pos (by rwa [Nat.mul_one])

/-- A decimal that is not below a double names none that is below it. -/
theorem le_magnitude_toBinary64 (hx : x.IsFinite) (negative : Bool) {n : Nat} {k : Int}
    (h : x.scaledNum k ≤ n * scaledDen k) :
    x.magnitude ≤ ((⟨n, k⟩ : Decimal).toBinary64 negative).magnitude := by
  rw [toBinary64_eq_ofUnits]
  conv_lhs => rw [← ofUnits_units hx]
  exact magnitude_ofUnits_le _ _ Nat.one_pos (Nat.pow_pos (by decide)) (by rwa [Nat.mul_one])

/-- Greater digits name no smaller double. -/
theorem magnitude_toBinary64_mono (negative : Bool) {n n' : Nat} (k : Int) (h : n ≤ n') :
    ((⟨n, k⟩ : Decimal).toBinary64 negative).magnitude ≤
      ((⟨n', k⟩ : Decimal).toBinary64 negative).magnitude := by
  rw [toBinary64_eq_ofUnits, toBinary64_eq_ofUnits]
  refine magnitude_ofUnits_le _ _ (Nat.pow_pos (by decide)) (Nat.pow_pos (by decide)) ?_
  exact Nat.mul_le_mul_right _ (Nat.mul_le_mul_right _ h)

/-- A decimal that names a double below a power of two is below this power. -/
theorem mul_scaledDen_lt (hx : x.IsFinite) {n : Nat} {k : Int}
    (hname : (⟨n, k⟩ : Decimal).toBinary64 x.negative = x) {j : Nat} (h : x.units < 2 ^ j) :
    n * scaledDen k < 2 ^ j * 10 ^ (-k).toNat := by
  by_contra hge
  refine Nat.not_le_of_gt (magnitude_lt_ofUnits_two_pow hx h) ?_
  conv_rhs => rw [← hname, toBinary64_eq_ofUnits]
  refine magnitude_ofUnits_le _ _ Nat.one_pos (Nat.pow_pos (by decide)) ?_
  rw [Nat.mul_one]
  exact Nat.not_lt.mp hge

/-- The decimal behind the floor of a double is above the double. -/
theorem scaledNum_lt_next (x : Binary64) (k : Int) :
    x.scaledNum k < (x.scaledNum k / scaledDen k + 1) * scaledDen k := by
  rw [Nat.mul_comm]
  exact Nat.lt_mul_div_succ _ (scaledDen_pos k)

theorem isNamedBy_iff {d : Decimal} : x.isNamedBy d = true ↔ d.toBinary64 x.negative = x :=
  decide_eq_true_iff

/-- A decimal names a double exactly if it names one of the same size: the sign is given. -/
theorem isNamedBy_iff_magnitude {d : Decimal} :
    x.isNamedBy d = true ↔ (d.toBinary64 x.negative).magnitude = x.magnitude := by
  rw [isNamedBy_iff]
  exact ⟨congrArg magnitude, eq_of_magnitude_eq (Decimal.negative_toBinary64 _ _)⟩

/-- Between a decimal that names a double and the double, every decimal names it. -/
theorem isNamedBy_of_between (hx : x.IsFinite) {m n : Nat} {k : Int}
    (hname : x.isNamedBy ⟨m, k⟩ = true)
    (h : m ≤ n ∧ n * scaledDen k ≤ x.scaledNum k ∨ n ≤ m ∧ x.scaledNum k ≤ n * scaledDen k) :
    x.isNamedBy ⟨n, k⟩ = true := by
  rw [isNamedBy_iff_magnitude] at hname ⊢
  rcases h with ⟨hmn, hle⟩ | ⟨hnm, hle⟩
  · refine Nat.le_antisymm (magnitude_toBinary64_le hx _ hle) ?_
    rw [← hname]
    exact magnitude_toBinary64_mono _ _ hmn
  · refine Nat.le_antisymm ?_ (le_magnitude_toBinary64 hx _ hle)
    rw [← hname]
    exact magnitude_toBinary64_mono _ _ hnm

/-- If any decimal with an exponent names a double, one of the two neighbours of the double does. -/
theorem hasDecimalAt_iff (hx : x.IsFinite) {k : Int} :
    x.hasDecimalAt k = true ↔ ∃ n, x.isNamedBy ⟨n, k⟩ = true := by
  unfold hasDecimalAt
  rw [Bool.or_eq_true]
  constructor
  · rintro (h | h)
    · exact ⟨_, h⟩
    · exact ⟨_, h⟩
  · rintro ⟨n, h⟩
    have hfloor : x.scaledNum k / scaledDen k * scaledDen k ≤ x.scaledNum k := Nat.div_mul_le_self _ _
    have hnext := Nat.le_of_lt (x.scaledNum_lt_next k)
    rcases Nat.lt_or_ge (x.scaledNum k / scaledDen k) n with hlt | hge
    · exact Or.inr (isNamedBy_of_between hx h (Or.inr ⟨hlt, hnext⟩))
    · exact Or.inl (isNamedBy_of_between hx h (Or.inl ⟨hge, hfloor⟩))

/-- A finer exponent has a decimal whenever a coarser has one: zeros may be added to its digits. -/
theorem hasDecimalAt_of_le (hx : x.IsFinite) {k k' : Int} (hle : k ≤ k')
    (h : x.hasDecimalAt k' = true) : x.hasDecimalAt k = true := by
  rw [hasDecimalAt_iff hx] at h ⊢
  obtain ⟨n, hn⟩ := h
  refine ⟨n * 10 ^ (k' - k).toNat, ?_⟩
  rw [isNamedBy_iff] at hn ⊢
  have hexponent : k + ((k' - k).toNat : Int) = k' := by omega
  rw [Decimal.toBinary64_shift, hexponent]
  exact hn

/-! ## Where the shortest decimals are -/

theorem log2_units_lt (hx : x.IsFinite) : x.units.log2 < 2098 := by
  have hexponent : x.exponent.val < 2047 := Nat.lt_of_le_of_ne (Nat.le_of_lt_succ x.exponent.isLt) hx
  have hstep := log2_units_sub x
  rw [step] at hstep
  omega

/-- Ten to the third is at most two to the tenth. -/
theorem ten_pow_le_two_pow {n m : Nat} (h : 10 * n ≤ 3 * m) : 10 ^ n ≤ 2 ^ m := by
  have hpower : (10 ^ n) ^ 10 ≤ (2 ^ m) ^ 10 :=
    calc (10 ^ n) ^ 10 = 10 ^ (10 * n) := by rw [← Nat.pow_mul, Nat.mul_comm]
      _ ≤ 10 ^ (3 * m) := Nat.pow_le_pow_right (by decide) h
      _ = (10 ^ 3) ^ m := Nat.pow_mul _ _ _
      _ ≤ (2 ^ 10) ^ m := Nat.pow_le_pow_left (by decide) m
      _ = (2 ^ m) ^ 10 := by rw [← Nat.pow_mul, ← Nat.pow_mul, Nat.mul_comm]
  exact (Nat.pow_le_pow_iff_left (by decide)).mp hpower

/-- Two to the tenth is not much more than ten to the third: over the range of doubles less than two
places are lost. -/
theorem two_pow_ten_mul_le : ∀ q < 108, 2 ^ (10 * q) ≤ 10 ^ (3 * q) * 13 := by
  decide +kernel

theorem two_pow_le_ten_pow {m n : Nat} (hm : m < 1080) (h : 3 * m + 41 ≤ 10 * n) : 2 ^ m ≤ 10 ^ n := by
  calc 2 ^ m = 2 ^ (10 * (m / 10)) * 2 ^ (m % 10) := by
        rw [← Nat.pow_add, Nat.div_add_mod]
    _ ≤ 10 ^ (3 * (m / 10)) * 13 * 2 ^ 9 :=
        Nat.mul_le_mul (two_pow_ten_mul_le _ (by omega)) (Nat.pow_le_pow_right (by decide) (by omega))
    _ ≤ 10 ^ (3 * (m / 10)) * 10 ^ 5 := by
        rw [Nat.mul_assoc]
        exact Nat.mul_le_mul_left _ (by decide)
    _ ≤ 10 ^ n := by
        rw [← Nat.pow_add]
        exact Nat.pow_le_pow_right (by decide) (by omega)

/-- One exponent coarser than the leading one, a unit is greater than the double. -/
theorem two_pow_le_scaledDen {l : Nat} (hl : l < 2098) :
    2 ^ (l + 1) * 10 ^ (-(((l : Int) - 1073) * 3 / 10 + 5)).toNat ≤
      scaledDen (((l : Int) - 1073) * 3 / 10 + 5) := by
  obtain ⟨u, hu, hunits⟩ := unitsPerOne_eq
  rw [scaledDen, hunits, Nat.pow_eq]
  generalize hk : ((l : Int) - 1073) * 3 / 10 + 5 = k
  rcases Nat.lt_or_ge l 1073 with hlt | hge
  · calc 2 ^ (l + 1) * 10 ^ (-k).toNat ≤ 2 ^ (l + 1) * 2 ^ (1073 - l) :=
          Nat.mul_le_mul_left _ (ten_pow_le_two_pow (by omega))
      _ = 2 ^ u := by
          rw [← Nat.pow_add]
          exact congrArg (2 ^ ·) (by omega)
      _ ≤ 2 ^ u * 10 ^ k.toNat := Nat.le_mul_of_pos_right _ (Nat.pow_pos (by decide))
  · have hneg : (-k).toNat = 0 := by omega
    rw [hneg, Nat.pow_zero, Nat.mul_one]
    calc 2 ^ (l + 1) = 2 ^ u * 2 ^ (l - 1073) := by
          rw [← Nat.pow_add]
          exact congrArg (2 ^ ·) (by omega)
      _ ≤ 2 ^ u * 10 ^ k.toNat :=
          Nat.mul_le_mul_left _ (two_pow_le_ten_pow (by omega) (by omega))

/-- Thirty-one exponents finer than the leading one, a unit is at most an eighth of the last bit. -/
theorem scaledDen_le_two_pow {l : Nat} (hl : l < 2098) :
    8 * scaledDen (((l : Int) - 1073) * 3 / 10 - 27) ≤
      2 ^ (l - 52) * 10 ^ (-(((l : Int) - 1073) * 3 / 10 - 27)).toNat := by
  obtain ⟨u, hu, hunits⟩ := unitsPerOne_eq
  rw [scaledDen, hunits, Nat.pow_eq]
  generalize hk : ((l : Int) - 1073) * 3 / 10 - 27 = k
  rcases Int.lt_or_le k 0 with hneg | hpos
  · have hzero : k.toNat = 0 := by omega
    rw [hzero, Nat.pow_zero, Nat.mul_one]
    have hten : 2 ^ (u + 3 - (l - 52)) ≤ 10 ^ (-k).toNat := by
      by_cases hstep : u + 3 ≤ l - 52
      · rw [Nat.sub_eq_zero_of_le hstep]
        exact Nat.pow_pos (by decide)
      · exact two_pow_le_ten_pow (by omega) (by omega)
    calc 8 * 2 ^ u = 2 ^ (u + 3) := by
          rw [Nat.pow_add, Nat.mul_comm]
      _ ≤ 2 ^ (l - 52 + (u + 3 - (l - 52))) := Nat.pow_le_pow_right (by decide) (by omega)
      _ = 2 ^ (l - 52) * 2 ^ (u + 3 - (l - 52)) := Nat.pow_add _ _ _
      _ ≤ 2 ^ (l - 52) * 10 ^ (-k).toNat := Nat.mul_le_mul_left _ hten
  · have hzero : (-k).toNat = 0 := by omega
    rw [hzero, Nat.pow_zero, Nat.mul_one]
    calc 8 * (2 ^ u * 10 ^ k.toNat) ≤ 2 ^ 3 * (2 ^ u * 2 ^ (l - 1163)) :=
          Nat.mul_le_mul_left _ (Nat.mul_le_mul_left _ (ten_pow_le_two_pow (by omega)))
      _ = 2 ^ (3 + (u + (l - 1163))) := by rw [← Nat.pow_add, ← Nat.pow_add]
      _ ≤ 2 ^ (l - 52) := Nat.pow_le_pow_right (by decide) (by omega)

/-- Thirty-one exponents below the leading one, seventeen digits and more name the double. -/
theorem hasDecimalAt_leadingExponent_sub (hx : x.IsFinite) :
    x.hasDecimalAt (x.leadingExponent - 31) = true := by
  have hk : x.leadingExponent - 31 = ((x.units.log2 : Int) - 1073) * 3 / 10 - 27 := by
    rw [leadingExponent]
    omega
  have hden := scaledDen_le_two_pow (log2_units_lt hx)
  rw [← hk, log2_units_sub] at hden
  generalize x.leadingExponent - 31 = k at hden
  refine (hasDecimalAt_iff hx).mpr ⟨x.scaledNum k / scaledDen k + 1, isNamedBy_iff_magnitude.mpr ?_⟩
  -- The neighbour above the double is nearer than an eighth of its last bit.
  refine Nat.le_antisymm ?_ (le_magnitude_toBinary64 hx _ (Nat.le_of_lt (x.scaledNum_lt_next k)))
  rw [toBinary64_eq_ofUnits]
  conv_rhs => rw [← ofUnits_add_eighth hx]
  refine magnitude_ofUnits_le _ _ (Nat.pow_pos (by decide)) (by decide) ?_
  calc (x.scaledNum k / scaledDen k + 1) * scaledDen k * 8
      = 8 * (x.scaledNum k / scaledDen k * scaledDen k) + 8 * scaledDen k := by ring
    _ ≤ 8 * x.scaledNum k + 2 ^ x.step * 10 ^ (-k).toNat :=
        Nat.add_le_add (Nat.mul_le_mul_left _ (Nat.div_mul_le_self _ _)) hden
    _ = (8 * x.units + 2 ^ x.step) * 10 ^ (-k).toNat := by
        rw [scaledNum, Nat.pow_eq]
        ring

/-- No decimal coarser than the leading exponent names a double, unless it is a zero. -/
theorem exponent_le_leadingExponent (hx : x.IsFinite) (hzero : ¬x.IsZero) {k : Int}
    (h : x.hasDecimalAt k = true) : k ≤ x.leadingExponent := by
  by_contra hlt
  have hk : x.leadingExponent + 1 = ((x.units.log2 : Int) - 1073) * 3 / 10 + 5 := by
    rw [leadingExponent]
    omega
  obtain ⟨n, hn⟩ :=
    (hasDecimalAt_iff hx).mp (hasDecimalAt_of_le hx (k := x.leadingExponent + 1) (by omega) h)
  rw [isNamedBy_iff] at hn
  have hpos : 0 < n := Nat.pos_of_ne_zero (digits_ne_zero hn hzero)
  -- Such a decimal is at least the power of two above the double.
  have hlt := mul_scaledDen_lt hx hn Nat.lt_log2_self
  have hden := two_pow_le_scaledDen (log2_units_lt hx)
  rw [← hk] at hden
  exact absurd (Nat.le_trans hden (Nat.le_mul_of_pos_left _ hpos)) (Nat.not_le_of_gt hlt)

/-! ## The shortest decimals -/

/-- The coarsest exponent of the decimals that name a double. -/
def shortestExponent (x : Binary64) : Int :=
  x.leadingExponent - firstTrue (fun n => x.hasDecimalAt (x.leadingExponent - n)) 5 0

theorem hasDecimalAt_shortestExponent (hx : x.IsFinite) :
    x.hasDecimalAt x.shortestExponent = true :=
  firstTrue_of_last (p := fun n : Nat => x.hasDecimalAt (x.leadingExponent - n))
    (hasDecimalAt_leadingExponent_sub hx)

/-- No decimal with a coarser exponent names the double, unless it is a zero. -/
theorem exponent_le_shortestExponent (hx : x.IsFinite) (hzero : ¬x.IsZero) {d : Decimal}
    (h : x.isNamedBy d = true) : d.exponent ≤ x.shortestExponent := by
  have hdecimal : x.hasDecimalAt d.exponent = true := (hasDecimalAt_iff hx).mpr ⟨d.digits, h⟩
  obtain ⟨n, hn⟩ := Int.le.dest (exponent_le_leadingExponent hx hzero hdecimal)
  have hexponent : d.exponent = x.leadingExponent - n := by omega
  have hmono : ∀ m n : Nat, m ≤ n → x.hasDecimalAt (x.leadingExponent - m) = true →
      x.hasDecimalAt (x.leadingExponent - n) = true :=
    fun m n hmn => hasDecimalAt_of_le hx (by omega)
  -- Bisection passes over no exponent that has a decimal.
  have hle : firstTrue (fun n => x.hasDecimalAt (x.leadingExponent - n)) 5 0 ≤ n := by
    by_contra hlt
    refine not_of_lt_firstTrue hmono (Nat.zero_le n) (Nat.lt_of_not_le hlt) ?_
    rwa [← hexponent]
  rw [shortestExponent]
  omega

/-- A decimal that is found at an exponent is one of the two neighbours of the double. -/
theorem decimalAt?_eq_some {tie : Tie} {k : Int} {d : Decimal} (h : x.decimalAt? tie k = some d) :
    d = ⟨x.scaledNum k / scaledDen k, k⟩ ∨ d = ⟨x.scaledNum k / scaledDen k + 1, k⟩ := by
  unfold decimalAt? at h
  dsimp only at h
  split at h
  · obtain rfl := Option.some.inj h
    rcases roundQuotient_eq_or tie (x.scaledNum k) (scaledDen k) with hround | hround
    · exact Or.inl (congrArg (Decimal.mk · k) hround)
    · exact Or.inr (congrArg (Decimal.mk · k) hround)
  · exact Or.inl (Option.some.inj h).symm
  · exact Or.inr (Option.some.inj h).symm
  · cases h

theorem exists_decimalAt? {k : Int} (h : x.hasDecimalAt k = true) (tie : Tie) :
    ∃ d, x.decimalAt? tie k = some d := by
  unfold hasDecimalAt at h
  unfold decimalAt?
  dsimp only at h ⊢
  split
  · exact ⟨_, rfl⟩
  · exact ⟨_, rfl⟩
  · exact ⟨_, rfl⟩
  · next hfloor hnext =>
    rw [hfloor, hnext] at h
    cases h

/-- The shortest decimal is found at the coarsest exponent. -/
theorem decimalAt?_shortestExponent (hx : x.IsFinite) (tie : Tie) :
    x.decimalAt? tie x.shortestExponent = some (x.shortestDecimal tie) := by
  obtain ⟨d, hd⟩ := exists_decimalAt? (hasDecimalAt_shortestExponent hx) tie
  have hshortest : x.shortestDecimal tie =
      (x.decimalAt? tie x.shortestExponent).getD x.exactDecimal := rfl
  rw [hshortest, hd]
  rfl

theorem exponent_shortestDecimal (hx : x.IsFinite) (tie : Tie) :
    (x.shortestDecimal tie).exponent = x.shortestExponent := by
  rcases decimalAt?_eq_some (decimalAt?_shortestExponent hx tie) with h | h
  · exact congrArg Decimal.exponent h
  · exact congrArg Decimal.exponent h

/-- No decimal that names a double has a coarser exponent than the shortest decimal, unless the double is a
zero. -/
theorem exponent_le_shortestDecimal (hx : x.IsFinite) (hzero : ¬x.IsZero) (tie : Tie) {d : Decimal}
    (h : d.toBinary64 x.negative = x) : d.exponent ≤ (x.shortestDecimal tie).exponent := by
  rw [exponent_shortestDecimal hx]
  exact exponent_le_shortestExponent hx hzero (isNamedBy_iff.mpr h)

/-! ## Ties -/

/-- A double is exactly half-way between two decimals that name it, of which the lower is even, while no
decimal with a coarser exponent names it. -/
structure IsTiedAt (x : Binary64) (n : Nat) (k : Int) : Prop where
  lower : x.isNamedBy ⟨n, k⟩ = true
  upper : x.isNamedBy ⟨n + 1, k⟩ = true
  middle : 2 * x.scaledNum k = (2 * n + 1) * scaledDen k
  even : n % 2 = 0
  coarsest : ∀ d, x.isNamedBy d = true → d.exponent ≤ k

/-- A double is exactly half-way between its two shortest decimals, and ties to even go down. -/
def IsTied (x : Binary64) : Prop :=
  ∃ n k, x.IsTiedAt n k

/-- A quotient is half-way above its floor exactly if it leaves half of the denominator. -/
theorem two_mul_mod_eq_iff {num den : Nat} :
    2 * (num % den) = den ↔ 2 * num = (2 * (num / den) + 1) * den := by
  have h := Nat.div_add_mod num den
  have hdouble : 2 * num = 2 * (num / den) * den + 2 * (num % den) := by
    calc 2 * num = 2 * (den * (num / den) + num % den) := by rw [h]
      _ = 2 * (num / den) * den + 2 * (num % den) := by ring
  rw [hdouble, Nat.add_mul, Nat.one_mul, Nat.add_right_inj]

/-- The two roundings differ at the halves above even numbers. -/
theorem roundQuotient_toEven_ne_away_iff {num den : Nat} :
    roundQuotient .toEven num den ≠ roundQuotient .away num den ↔
      2 * (num % den) = den ∧ num / den % 2 = 0 := by
  unfold roundQuotient
  dsimp only
  split_ifs <;> omega

theorem not_isZero_of_middle {n : Nat} {k : Int} (h : 2 * x.scaledNum k = (2 * n + 1) * scaledDen k) :
    ¬x.IsZero := by
  intro hzero
  rw [scaledNum, units_eq_zero_of_isZero hzero, Nat.zero_mul, Nat.mul_zero] at h
  exact Nat.ne_of_gt (Nat.mul_pos (Nat.succ_pos _) (scaledDen_pos k)) h.symm

/-- The two choices differ at an exponent exactly if both neighbours name the double, which is half-way
between them, and the lower is even. -/
theorem decimalAt?_toEven_ne_away_iff {k : Int} :
    x.decimalAt? .toEven k ≠ x.decimalAt? .away k ↔
      (x.isNamedBy ⟨x.scaledNum k / scaledDen k, k⟩ = true ∧
        x.isNamedBy ⟨x.scaledNum k / scaledDen k + 1, k⟩ = true) ∧
      2 * (x.scaledNum k % scaledDen k) = scaledDen k ∧ x.scaledNum k / scaledDen k % 2 = 0 := by
  rw [← roundQuotient_toEven_ne_away_iff]
  unfold decimalAt?
  dsimp only
  cases x.isNamedBy ⟨x.scaledNum k / scaledDen k, k⟩ <;>
    cases x.isNamedBy ⟨x.scaledNum k / scaledDen k + 1, k⟩ <;> simp

/-- The choice between equally near shortest decimals matters exactly at the ties. -/
theorem shortestDecimal_toEven_ne_away_iff (hx : x.IsFinite) :
    x.shortestDecimal .toEven ≠ x.shortestDecimal .away ↔ x.IsTied := by
  have hdiffer : x.shortestDecimal .toEven ≠ x.shortestDecimal .away ↔
      x.decimalAt? .toEven x.shortestExponent ≠ x.decimalAt? .away x.shortestExponent := by
    rw [decimalAt?_shortestExponent hx, decimalAt?_shortestExponent hx, ne_eq, ne_eq, Option.some.injEq]
  rw [hdiffer, decimalAt?_toEven_ne_away_iff, two_mul_mod_eq_iff]
  constructor
  · rintro ⟨⟨hlower, hupper⟩, hmiddle, heven⟩
    exact ⟨_, _, hlower, hupper, hmiddle, heven,
      fun _ => exponent_le_shortestExponent hx (not_isZero_of_middle hmiddle)⟩
  · rintro ⟨n, k, hlower, hupper, hmiddle, heven, hcoarsest⟩
    have hle : k ≤ x.shortestExponent :=
      exponent_le_shortestExponent hx (not_isZero_of_middle hmiddle) hlower
    obtain ⟨m, hm⟩ := (hasDecimalAt_iff hx).mp (hasDecimalAt_shortestExponent hx)
    obtain rfl : k = x.shortestExponent := Int.le_antisymm hle (hcoarsest _ hm)
    have hfloor : x.scaledNum x.shortestExponent / scaledDen x.shortestExponent = n := by
      rw [Nat.div_eq_iff (scaledDen_pos _)]
      rw [Nat.add_mul, Nat.one_mul, Nat.mul_assoc] at hmiddle
      have hpos := scaledDen_pos x.shortestExponent
      constructor <;> omega
    rw [hfloor]
    exact ⟨⟨hlower, hupper⟩, hmiddle, heven⟩

end Binary64

end JsonFilter
