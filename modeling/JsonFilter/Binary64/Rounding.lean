import JsonFilter.Binary64.Basic

/-!
# Rounding to Binary64

The nearest number of the format to an exact quotient, a half going to the number with the even
significand, and what is too large going to infinity.  Products and quotients of numbers of the format
are rounded in this way.
-/

namespace JsonFilter

/-- Which of two equally near whole numbers to take. -/
inductive Tie where
  /-- The even one. -/
  | toEven
  /-- The larger one. -/
  | away
  deriving DecidableEq

/-- The whole number nearest to `num / den`. -/
def roundQuotient (tie : Tie) (num den : Nat) : Nat :=
  let floor := num / den
  let excess := 2 * (num % den)
  if excess < den then floor
  else if den < excess then floor + 1
  else match tie with
    | .toEven => if floor % 2 = 0 then floor else floor + 1
    | .away => floor + 1

/-- Rounding goes to one of the two neighbours. -/
theorem roundQuotient_eq_or (tie : Tie) (num den : Nat) :
    roundQuotient tie num den = num / den ∨ roundQuotient tie num den = num / den + 1 := by
  simp only [roundQuotient]
  by_cases low : 2 * (num % den) < den
  · simp [low]
  · by_cases high : den < 2 * (num % den)
    · simp [low, high]
    · cases tie
      · by_cases even : num / den % 2 = 0 <;> simp [low, high, even]
      · simp [low, high]

/-- A whole quotient is its own rounding. -/
theorem roundQuotient_mul (tie : Tie) (n : Nat) {den : Nat} (h : 0 < den) :
    roundQuotient tie (n * den) den = n := by
  simp [roundQuotient, Nat.mul_mod_left, Nat.mul_div_cancel _ h, h]

namespace Binary64

/-- The number with significand `s`, counted in steps of `2 ^ step` units, where `s` needs at most 53
bits and fewer than that only in the smallest step; beyond the largest finite number, an infinity. -/
def ofSteps (negative : Bool) (s step : Nat) : Binary64 :=
  -- The leading bit of `s` carries into the exponent field, and a second carry comes from rounding up.
  if h : step + s / Nat.pow 2 52 < 2047 then
    ⟨negative, ⟨step + s / Nat.pow 2 52, by omega⟩, ⟨s % Nat.pow 2 52, mod_fraction_lt s⟩⟩
  else
    infinity negative

/-- The number nearest to `num / den` units of 2⁻¹⁰⁷⁴, with the given sign. -/
def ofUnits (negative : Bool) (num den : Nat) : Binary64 :=
  -- The subtraction stops at zero, where the subnormal numbers begin.
  let step := (num / den).log2 - 52
  ofSteps negative (roundQuotient .toEven num (den * Nat.pow 2 step)) step

/-- The number nearest to a whole number. -/
def ofInt (n : Int) : Binary64 :=
  ofUnits (decide (n < 0)) (n.natAbs * unitsPerOne) 1

/-- The number nearest to a natural number, with the given sign. -/
def ofNat (negative : Bool) (n : Nat) : Binary64 :=
  ofUnits negative (n * unitsPerOne) 1

/-! ## Products and quotients -/

/-- The product of two finite numbers, rounded. -/
def mul (x y : Binary64) : Binary64 :=
  ofUnits (x.negative != y.negative) (x.units * y.units) unitsPerOne

/-- The quotient of two finite numbers, of which the second is not zero, rounded. -/
def div (x y : Binary64) : Binary64 :=
  ofUnits (x.negative != y.negative) (x.units * unitsPerOne) y.units

end Binary64

end JsonFilter
