import JsonFilter.Decimal.Layout
import JsonFilter.Proofs.Decimal.Reading
import JsonFilter.Proofs.Text.Digits
import Mathlib.Data.List.TakeWhile

/-!
# Significant digits

The significant digits of a decimal and the position of its point name the same double as the decimal.

* `Decimal.exists_stripZeros`: only zeros are stripped;
* `PointedDigits.value`: the decimal that digits with a point stand for;
* `Decimal.significant_pointed`: significant digits have no leading zero;
* `Decimal.toBinary64_pointed`: it names the same double as the decimal whose digits they are;
* `PointedDigits.padded`: the digits of a whole number.
-/

namespace JsonFilter

/-- The decimal that digits with a point stand for. -/
def PointedDigits.value (p : PointedDigits) : Decimal :=
  ⟨Text.toNat p.digits, p.point - p.digits.length⟩

/-- Digits without a leading zero, unless they are the zero in front of the point. -/
structure PointedDigits.Significant (p : PointedDigits) : Prop where
  whole : Text.IsWhole p.digits
  zero : p.digits = ['0'] → p.point = 1

namespace Decimal

/-- Only zeros at the end are stripped. -/
theorem exists_stripZeros (digits : List Char) :
    ∃ k, digits = stripZeros digits ++ List.replicate k '0' := by
  let zeros := digits.reverse.takeWhile (· == '0')
  have hzeros : zeros = List.replicate zeros.length '0' := by
    refine List.eq_replicate_of_mem fun c hc => ?_
    have hzero : (c == '0') = true := List.mem_takeWhile_imp (p := (· == '0')) hc
    exact eq_of_beq hzero
  have hsplit : zeros ++ digits.reverse.dropWhile (· == '0') = digits.reverse :=
    List.takeWhile_append_dropWhile
  refine ⟨zeros.length, ?_⟩
  calc digits = (zeros ++ digits.reverse.dropWhile (· == '0')).reverse := by
        rw [hsplit, List.reverse_reverse]
    _ = stripZeros digits ++ zeros.reverse := List.reverse_append
    _ = stripZeros digits ++ List.replicate zeros.length '0' := by
        rw [hzeros, List.reverse_replicate, List.length_replicate]

/-- The significant digits of a number that is not zero do not begin with a zero. -/
theorem head?_stripZeros_ofNat {n : Nat} (hn : n ≠ 0) :
    stripZeros (Text.ofNat n) ≠ [] ∧ (stripZeros (Text.ofNat n)).head? ≠ some '0' := by
  obtain ⟨k, hk⟩ := exists_stripZeros (Text.ofNat n)
  have hhead := Text.head?_ofNat_ne hn
  cases hstrip : stripZeros (Text.ofNat n) with
  | nil =>
    rw [hstrip, List.nil_append] at hk
    cases k with
    | zero => exact absurd hk (Text.isDigits_ofNat n).1
    | succ k =>
      rw [hk] at hhead
      exact absurd rfl hhead
  | cons c rest =>
    rw [hk, hstrip] at hhead
    exact ⟨List.cons_ne_nil _ _, hhead⟩

/-- A decimal has significant digits. -/
theorem significant_pointed (d : Decimal) : d.pointed.Significant := by
  unfold pointed
  split
  · exact ⟨Text.isWhole_ofNat 0, fun _ => rfl⟩
  · next hd =>
    obtain ⟨hne, hhead⟩ := head?_stripZeros_ofNat hd
    obtain ⟨k, hk⟩ := exists_stripZeros (Text.ofNat d.digits)
    have hdigits := (Text.isDigits_ofNat d.digits).2
    rw [hk] at hdigits
    refine ⟨⟨⟨hne, (List.forall_mem_append.mp hdigits).1⟩, fun h => absurd h hhead⟩, fun h => ?_⟩
    dsimp only at h
    rw [h] at hhead
    exact absurd rfl hhead

/-- The zeros that are stripped from the digits go into the exponent. -/
theorem exists_value_pointed {d : Decimal} (hd : d.digits ≠ 0) :
    ∃ digits k : Nat, d.pointed.value = ⟨digits, d.exponent + k⟩ ∧ d.digits = digits * 10 ^ k := by
  obtain ⟨k, hk⟩ := exists_stripZeros (Text.ofNat d.digits)
  have hlength : (Text.ofNat d.digits).length = (stripZeros (Text.ofNat d.digits)).length + k := by
    conv_lhs => rw [hk]
    rw [List.length_append, List.length_replicate]
  refine ⟨Text.toNat (stripZeros (Text.ofNat d.digits)), k, ?_, ?_⟩
  · rw [pointed, if_neg hd, PointedDigits.value]
    congr 1
    dsimp only
    omega
  · conv_lhs => rw [← Text.toNat_ofNat d.digits, hk]
    rw [Text.toNat_append, Text.toNat_replicate_zero, List.length_replicate, Nat.add_zero]

/-- Significant digits with a point name the same double as their decimal. -/
theorem toBinary64_pointed (negative : Bool) (d : Decimal) :
    d.pointed.value.toBinary64 negative = d.toBinary64 negative := by
  by_cases hd : d.digits = 0
  · rw [toBinary64_of_digits_eq_zero negative hd, pointed, if_pos hd]
    exact toBinary64_of_digits_eq_zero negative (Text.toNat_ofNat 0)
  · obtain ⟨digits, k, hvalue, hdigits⟩ := exists_value_pointed hd
    obtain ⟨_, exponent⟩ := d
    obtain rfl := hdigits
    rw [hvalue, toBinary64_shift]

/-- The significant digits of decimals with one exponent tell them apart. -/
theorem eq_of_value_pointed_eq {d d' : Decimal} (hd : d.digits ≠ 0) (hd' : d'.digits ≠ 0)
    (hexponent : d.exponent = d'.exponent) (h : d.pointed.value = d'.pointed.value) : d = d' := by
  obtain ⟨digits, k, hvalue, hdigits⟩ := exists_value_pointed hd
  obtain ⟨digits', k', hvalue', hdigits'⟩ := exists_value_pointed hd'
  rw [hvalue, hvalue', mk.injEq, hexponent] at h
  obtain ⟨rfl, hk⟩ := h
  obtain rfl : k = k' := by omega
  obtain ⟨_, _⟩ := d
  obtain ⟨_, _⟩ := d'
  rw [mk.injEq]
  exact ⟨hdigits.trans hdigits'.symm, hexponent⟩

end Decimal

/-- The significant digits of the shortest decimal of a finite double name it. -/
theorem Binary64.toBinary64_pointed_shortestDecimal {x : Binary64} (hx : x.IsFinite) (tie : Tie) :
    (x.shortestDecimal tie).pointed.value.toBinary64 x.negative = x :=
  (Decimal.toBinary64_pointed _ _).trans (toBinary64_shortestDecimal hx tie)

namespace PointedDigits

/-! ## Numbers that are not whole -/

/-- Digits in front of or around the point are those of a whole number, a point and decimals: the zeros that
are added do not change the value. -/
theorem exists_positional_eq {p : PointedDigits} (hp : p.Significant) (hpoint : p.point < p.digits.length)
    (whole : List Char) :
    ∃ front back, p.positional whole = front ++ '.' :: back ∧ Text.IsWhole front ∧ Text.IsDigits back ∧
      (⟨Text.toNat (front ++ back), -back.length⟩ : Decimal) = p.value := by
  obtain ⟨digits, point⟩ := p
  obtain ⟨⟨hdigits, hleading⟩, -⟩ := hp
  dsimp only at hdigits hleading hpoint
  unfold positional value
  dsimp only
  split
  · next hfront =>
    refine ⟨['0'], List.replicate point.natAbs '0' ++ digits, rfl, Text.isWhole_ofNat 0,
      ⟨List.append_ne_nil_of_right_ne_nil _ hdigits.1, List.forall_mem_append.mpr
        ⟨fun _ => Text.isDigit_of_mem_replicate, hdigits.2⟩⟩, ?_⟩
    have hvalue : Text.toNat (['0'] ++ (List.replicate point.natAbs '0' ++ digits)) =
        Text.toNat digits := by
      rw [Text.toNat_append, Text.toNat_append, Text.toNat_replicate_zero]
      show 0 * _ + _ = _
      omega
    rw [hvalue, List.length_append, List.length_replicate]
    congr 1
    omega
  · next hfront =>
    refine ⟨digits.take point.toNat, digits.drop point.toNat, rfl,
      ⟨⟨?_, fun c hc => hdigits.2 c (List.mem_of_mem_take hc)⟩, fun hhead => ?_⟩,
      ⟨?_, fun c hc => hdigits.2 c (List.mem_of_mem_drop hc)⟩, ?_⟩
    · rw [ne_eq, List.take_eq_nil_iff, not_or]
      exact ⟨by omega, hdigits.1⟩
    · rw [List.head?_take, if_neg (by omega)] at hhead
      have hone := congrArg List.length (hleading hhead)
      simp only [List.length_cons, List.length_nil] at hone
      omega
    · rw [ne_eq, List.drop_eq_nil_iff]
      omega
    · rw [List.take_append_drop, List.length_drop]
      congr 1
      omega

/-- A number that is not whole is written without what follows whole numbers. -/
theorem positional_congr {p : PointedDigits} (hpoint : p.point < p.digits.length)
    (whole whole' : List Char) : p.positional whole = p.positional whole' := by
  unfold positional
  split
  · rfl
  · rfl

/-- Numbers that are not whole are told apart by their texts. -/
theorem value_eq_of_positional_eq {p p' : PointedDigits} (hp : p.Significant) (hp' : p'.Significant)
    (hpoint : p.point < p.digits.length) (hpoint' : p'.point < p'.digits.length)
    {whole whole' : List Char} (h : p.positional whole = p'.positional whole') : p.value = p'.value := by
  obtain ⟨front, back, htext, hfront, hback, hvalue⟩ := exists_positional_eq hp hpoint whole
  obtain ⟨front', back', htext', -, -, hvalue'⟩ := exists_positional_eq hp' hpoint' whole'
  have hdot : ∀ {digits : List Char}, Text.IsDigits digits → '.' ∉ digits :=
    fun hdigits hmem => absurd (hdigits.2 _ hmem) (by decide)
  rw [htext, htext', List.append_cons_inj_of_notMem (hdot hfront.1) (hdot hback)] at h
  obtain ⟨rfl, -, rfl⟩ := h
  rw [← hvalue, hvalue']

/-! ## Whole numbers -/

/-- The digits of a whole number, with the zeros in front of its point. -/
def padded (p : PointedDigits) : List Char :=
  p.digits ++ List.replicate (p.point.toNat - p.digits.length) '0'

theorem positional_of_le {p : PointedDigits} (hp : p.Significant) (hpoint : p.digits.length ≤ p.point)
    (whole : List Char) : p.positional whole = p.padded ++ whole := by
  have hpos := List.length_pos_of_ne_nil hp.whole.1.1
  rw [positional, if_neg (by omega), if_neg (by omega)]
  rfl

theorem Significant.isWhole_padded {p : PointedDigits} (hp : p.Significant) : Text.IsWhole p.padded := by
  obtain ⟨⟨hdigits, hleading⟩, hzero⟩ := hp
  refine ⟨hdigits.append fun _ => Text.isDigit_of_mem_replicate, fun hhead => ?_⟩
  rw [padded, List.head?_append_of_ne_nil _ hdigits.1] at hhead
  rw [padded, hzero (hleading hhead), hleading hhead]
  rfl

/-- The zeros in front of the point do not change the value. -/
theorem toBinary64_padded (negative : Bool) {p : PointedDigits} (hpoint : p.digits.length ≤ p.point) :
    (⟨Text.toNat p.padded, 0⟩ : Decimal).toBinary64 negative = p.value.toBinary64 negative := by
  have hvalue : Text.toNat p.padded =
      Text.toNat p.digits * 10 ^ (p.point.toNat - p.digits.length) := by
    rw [padded, Text.toNat_append, Text.toNat_replicate_zero, List.length_replicate, Nat.add_zero]
  rw [hvalue, Decimal.toBinary64_shift, value]
  congr 2
  omega

end PointedDigits

/-- The text of a double for which the layout is positional. -/
theorem FloatLayout.text_of_isPositional {layout : FloatLayout} {x : Binary64}
    (h : layout.isPositional (x.shortestDecimal layout.tie).pointed.point = true) :
    layout.text x = if x.negative then '-' :: (x.shortestDecimal layout.tie).pointed.positional layout.whole
      else (x.shortestDecimal layout.tie).pointed.positional layout.whole := by
  rw [text, if_pos h]

end JsonFilter
