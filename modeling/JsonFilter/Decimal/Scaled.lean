import JsonFilter.Binary64.Rounding

/-!
# Reading decimals by scaling

A double for a decimal in a few operations on doubles: the digits, of which no more are kept than fit into
64 bits, are rounded to a double, and this is multiplied or divided by a power of ten.  Every operation
rounds, so the result need not be the double nearest to the decimal, and close to the largest double there
may be no result.
-/

namespace JsonFilter

/-- The number `digits * 10 ^ exponent`, with digits of 64 bits. -/
structure ShortDecimal where
  digits : Fin (Nat.pow 2 64)
  exponent : Int

namespace ShortDecimal

/-- The greatest power of ten below all infinities. -/
def maxPower : Nat :=
  308

/-- The double nearest to a power of ten. -/
def powerOfTen (k : Nat) : Binary64 :=
  .ofNat false (Nat.pow 10 k)

/-- Divides a double by the greatest power of ten a number of times, or until it is zero. -/
def shrink : (times : Nat) → Binary64 → Binary64
  | 0, x => x
  | times + 1, x => if x.IsZero then x else shrink times (x.div (powerOfTen maxPower))

/-- The double that the digits of a decimal give when they are scaled by the power of ten, with the given
sign, unless this is beyond the largest double. -/
def scaled? (negative : Bool) (d : ShortDecimal) : Option Binary64 :=
  let x : Binary64 := .ofNat negative d.digits
  if d.exponent < 0 then
    -- Powers of ten that are no doubles are divided by in several steps.
    let places := d.exponent.natAbs
    let times := (places - 1) / maxPower
    some ((shrink times x).div (powerOfTen (places - maxPower * times)))
  else if d.exponent ≤ maxPower then
    let product := x.mul (powerOfTen d.exponent.toNat)
    if product.IsFinite then some product else none
  else if x.IsZero then some x
  else none

end ShortDecimal

end JsonFilter
