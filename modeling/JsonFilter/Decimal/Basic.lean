import JsonFilter.Binary64.Rounding

/-!
# Decimal

Decimal numbers of any length, and the number of the double format that each of them names.
-/

namespace JsonFilter

/-- The number `digits * 10 ^ exponent`. -/
structure Decimal where
  digits : Nat
  exponent : Int
  deriving DecidableEq

namespace Decimal

/-- The double nearest to a decimal, with the given sign.  Exponents that leave every double far
behind answer at once: above 10⁴⁰⁰ all is infinite, and a number of `b` bits over 10ᵏ is below half of
the smallest double as soon as `8 ^ k` is above `2 ^ (b + 1076)`. -/
def toBinary64 (negative : Bool) (d : Decimal) : Binary64 :=
  if d.digits = 0 then .zero negative
  -- Too great or too small for any double.
  else if 400 < d.exponent then .infinity negative
  else if d.digits.log2 + 1077 < 3 * (-d.exponent).toNat then .zero negative
  -- The exact quotient, rounded once.
  else
    .ofUnits negative (d.digits * Nat.pow 10 d.exponent.toNat * Binary64.unitsPerOne)
      (Nat.pow 10 (-d.exponent).toNat)

end Decimal

end JsonFilter
