import JsonFilter.Decimal.Basic

/-!
# The shortest decimal of a double

Among the decimals with one exponent, a double has two neighbours: the greatest that is not above it
and the next one.  The finer the exponent, the nearer they are, so from some exponent on one of them
names the double, which is then the nearest to it.  The shortest decimal comes from the first such
exponent; if both neighbours name the double there, the nearer is taken.
-/

namespace JsonFilter

/-! ## Bisection -/

/-- The first number from `start` on that has a property, found by halving the `2 ^ bits` numbers of
which the first may be.  The property, once true, has to stay true. -/
def firstTrue (p : Nat → Bool) : (bits start : Nat) → Nat
  | 0, start => start
  | bits + 1, start =>
    if p (start + (Nat.pow 2 bits - 1)) then firstTrue p bits start
    else firstTrue p bits (start + Nat.pow 2 bits)

/-- Bisection finds a number with the property, if there is one where it looks. -/
theorem firstTrue_of_last {p : Nat → Bool} {bits start : Nat} (h : p (start + (Nat.pow 2 bits - 1))) :
    p (firstTrue p bits start) := by
  induction bits generalizing start with
  | zero => simpa [firstTrue] using h
  | succ bits ih =>
    rw [firstTrue]
    split
    · next hp => exact ih hp
    · refine ih ?_
      have hpos : 0 < Nat.pow 2 bits := Nat.two_pow_pos bits
      have hsucc : Nat.pow 2 (bits + 1) = Nat.pow 2 bits * 2 := rfl
      have : start + Nat.pow 2 bits + (Nat.pow 2 bits - 1) =
          start + (Nat.pow 2 (bits + 1) - 1) := by
        omega
      rwa [this]

/-- Bisection passes over no number with the property. -/
theorem not_of_lt_firstTrue {p : Nat → Bool} (mono : ∀ m n, m ≤ n → p m → p n) {bits start n : Nat}
    (hs : start ≤ n) (hn : n < firstTrue p bits start) : ¬p n := by
  induction bits generalizing start with
  | zero => exact absurd hn (by simpa [firstTrue] using hs)
  | succ bits ih =>
    rw [firstTrue] at hn
    split at hn
    · exact ih hs hn
    · next hp =>
      by_cases h : start + Nat.pow 2 bits ≤ n
      · exact ih h hn
      · exact fun hpn => hp (mono n _ (by omega) hpn)

/-! ## Decimals that name a double -/

namespace Binary64

/-- Whether a decimal names the given double. -/
def isNamedBy (x : Binary64) (d : Decimal) : Bool :=
  d.toBinary64 x.negative = x

/-- The size of a finite double is `scaledNum x k / scaledDen k` times `10 ^ k`. -/
def scaledNum (x : Binary64) (k : Int) : Nat :=
  x.units * Nat.pow 10 (-k).toNat

/-- The denominator that goes with `scaledNum`. -/
def scaledDen (k : Int) : Nat :=
  unitsPerOne * Nat.pow 10 k.toNat

/-- Whether a decimal with exponent `k` names the given double. -/
def hasDecimalAt (x : Binary64) (k : Int) : Bool :=
  let floor := x.scaledNum k / scaledDen k
  x.isNamedBy ⟨floor, k⟩ || x.isNamedBy ⟨floor + 1, k⟩

/-- The decimal with exponent `k` that names the given double and is nearest to it, if there is one. -/
def decimalAt? (x : Binary64) (tie : Tie) (k : Int) : Option Decimal :=
  let floor := x.scaledNum k / scaledDen k
  match x.isNamedBy ⟨floor, k⟩, x.isNamedBy ⟨floor + 1, k⟩ with
  | true, true => some ⟨roundQuotient tie (x.scaledNum k) (scaledDen k), k⟩
  | true, false => some ⟨floor, k⟩
  | false, true => some ⟨floor + 1, k⟩
  | false, false => none

/-- An exponent that is not below that of any decimal of one digit near the double, and less than ten
above it: three tenths of a binary exponent are nearly the decimal one. -/
def leadingExponent (x : Binary64) : Int :=
  ((x.units.log2 : Int) - 1073) * 3 / 10 + 4

/-- The exact value of a finite double, signs apart: a double whose last bit is below one takes as
many decimal places as that bit has binary ones. -/
def exactDecimal (x : Binary64) : Decimal :=
  ⟨x.significand * Nat.pow 2 (x.step - 1074) * Nat.pow 5 (1074 - x.step), -(1074 - x.step : Nat)⟩

/-- The nearest of the shortest decimals that name the given double.  Seventeen digits are
always enough, so the exponent is one of the 32 that are looked at. -/
def shortestDecimal (x : Binary64) (tie : Tie) : Decimal :=
  let top := x.leadingExponent
  let drop := firstTrue (fun n => x.hasDecimalAt (top - n)) 5 0
  (x.decimalAt? tie (top - drop)).getD x.exactDecimal

end Binary64

end JsonFilter
