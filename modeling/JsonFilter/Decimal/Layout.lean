import JsonFilter.Decimal.Shortest
import JsonFilter.Text.Digits

/-!
# Layouts of decimals

A decimal is written from its significant digits and the position of its point: the value is
`0.DIGITS * 10 ^ point`.  Positional layouts put the point among the digits and pad with zeros;
scientific layouts put it after the first digit and add an exponent.
-/

namespace JsonFilter

/-- Significant digits, of which the last is not zero unless it is the only one, and the position of
the point before, among or behind them. -/
structure PointedDigits where
  digits : List Char
  point : Int

namespace Decimal

/-- The list without the zeros at its end. -/
def stripZeros (digits : List Char) : List Char :=
  (digits.reverse.dropWhile (· == '0')).reverse

/-- The significant digits of a decimal and the position of its point; zero is written `0`. -/
def pointed (d : Decimal) : PointedDigits :=
  if d.digits = 0 then ⟨['0'], 1⟩
  else
    let digits := Text.ofNat d.digits
    ⟨stripZeros digits, digits.length + d.exponent⟩

end Decimal

namespace PointedDigits

/-- The point in its place, with zeros between it and the digits; a whole number ends in `whole`. -/
def positional (whole : List Char) (p : PointedDigits) : List Char :=
  if p.point ≤ 0 then
    '0' :: '.' :: (List.replicate p.point.natAbs '0' ++ p.digits)
  else if p.point < p.digits.length then
    p.digits.take p.point.toNat ++ '.' :: p.digits.drop p.point.toNat
  else
    p.digits ++ List.replicate (p.point.toNat - p.digits.length) '0' ++ whole

/-- One digit before the point, the others behind it, and a signed exponent. -/
def scientific (p : PointedDigits) : List Char :=
  let exponent := p.point - 1
  let mantissa :=
    match p.digits with
    | first :: second :: rest => first :: '.' :: second :: rest
    | digits => digits
  mantissa ++ 'e' :: (if exponent < 0 then '-' else '+') :: Text.ofNat exponent.natAbs

end PointedDigits

/-- A way of writing finite doubles. -/
structure FloatLayout where
  /-- The positions of the point for which the layout is positional. -/
  isPositional : Int → Bool
  /-- What follows a whole number in a positional layout. -/
  whole : List Char
  /-- The choice between two equally near shortest decimals. -/
  tie : Tie

namespace FloatLayout

/-- Up to sixteen digits before the point and up to four zeros behind it are written out, whole
numbers keep a point, and ties go to the even digit. -/
def compact : FloatLayout where
  isPositional point := decide (-5 < point ∧ point ≤ 16)
  whole := ['.', '0']
  tie := .toEven

/-- All digits are written out, whole numbers have no point, and ties go to the larger decimal. -/
def plain : FloatLayout where
  isPositional _ := true
  whole := []
  tie := .away

/-- The text of a finite double. -/
def text (layout : FloatLayout) (x : Binary64) : List Char :=
  let pointed := (x.shortestDecimal layout.tie).pointed
  let size :=
    if layout.isPositional pointed.point then pointed.positional layout.whole
    else pointed.scientific
  if x.negative then '-' :: size else size

end FloatLayout

end JsonFilter
