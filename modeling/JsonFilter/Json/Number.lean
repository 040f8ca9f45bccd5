import JsonFilter.Decimal.Scaled
import JsonFilter.Json.Basic

/-!
# Numbers of JSON texts

What number is meant by the digits of a text.  Digits are taken into a word of 64 bits as long as they fit.
A number without point and exponent whose digits all fit is an integer; any other number is the double that
comes out when the digits that fit are scaled by a power of ten.  So a number need not be read as the double
nearest to it.
-/

namespace JsonFilter.Json

/-- The parts of a number as it is written. -/
structure NumberParts where
  /-- Whether there is a minus sign. -/
  negative : Bool
  /-- The digits in front of the point. -/
  whole : List Char
  /-- The digits behind the point, if there is one. -/
  fraction : Option (List Char)
  /-- The exponent, if there is one. -/
  exponent : Option Int

/-- Appends digits to a word as long as they fit, and gives the word and the digits that are left. -/
def takeDigits (word : Fin (Nat.pow 2 64)) : List Char → Fin (Nat.pow 2 64) × List Char
  | [] => (word, [])
  | c :: rest =>
    let next := 10 * word.val + (c.toNat - '0'.toNat)
    if h : next < Nat.pow 2 64 then takeDigits ⟨next, h⟩ rest else (word, c :: rest)

namespace NumberParts

/-- The decimal of the digits that fit into a word.  Digits in front of the point that do not fit still
count as places; behind the point they are left out. -/
def shortDecimal (parts : NumberParts) : ShortDecimal :=
  let decimals := parts.fraction.getD []
  let (word, unread) := takeDigits 0 parts.whole
  let (word, ignored) := takeDigits word decimals
  ⟨word, unread.length - (decimals.length - ignored.length : Nat) + parts.exponent.getD 0⟩

end NumberParts

/-- The double that a decimal is read as, if there is one. -/
def ofDecimal? (negative : Bool) (d : ShortDecimal) : Option Json :=
  (d.scaled? negative).map float

/-- The number with the given parts.  Without point and exponent it is an integer if it fits into 64 bits,
unsigned or, behind a minus sign, signed; a zero behind a minus sign is no integer. -/
def ofNumberParts? (parts : NumberParts) : Option Json :=
  let (word, unread) := takeDigits 0 parts.whole
  if parts.fraction.isNone ∧ parts.exponent.isNone ∧ unread.isEmpty then
    if parts.negative then
      if word.val ≠ 0 ∧ word.val ≤ Nat.pow 2 63 then some (integer (-(word.val : Int)))
      else some (float (.ofNat true word))
    else some (integer word.val)
  else ofDecimal? parts.negative parts.shortDecimal

end JsonFilter.Json
