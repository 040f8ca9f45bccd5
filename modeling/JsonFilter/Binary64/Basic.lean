/-!
# Binary64

Numbers in the double format: a sign, an exponent field of 11 bits and a fraction of 52 bits.  Every
bit pattern is a value of its own, so the payload of a NaN is kept.

The size of a finite number is counted in units of 2⁻¹⁰⁷⁴, the smallest positive number of the format.
Counted so, it is a natural number, and all statements on exact values are statements on naturals.
-/

namespace JsonFilter

/-- A number in the double format, by the three parts of its bit pattern. -/
structure Binary64 where
  /-- The sign bit. -/
  negative : Bool
  /-- The exponent field: 0 for zeros and subnormals, 2047 for infinities and NaNs. -/
  exponent : Fin 2048
  /-- The bits of the significand below the leading one. -/
  fraction : Fin (Nat.pow 2 52)
  deriving DecidableEq

namespace Binary64

/-! ## Bit patterns -/

/-- The last 52 bits of a number are a fraction. -/
theorem mod_fraction_lt (n : Nat) : n % Nat.pow 2 52 < Nat.pow 2 52 :=
  Nat.mod_lt n (by decide)

/-- The number with the given 64 bits. -/
def ofBits (bits : Nat) : Binary64 where
  negative := decide (bits / Nat.pow 2 63 % 2 = 1)
  exponent := ⟨bits / Nat.pow 2 52 % 2048, Nat.mod_lt _ (by decide)⟩
  fraction := ⟨bits % Nat.pow 2 52, mod_fraction_lt bits⟩

/-- The 64 bits of a number. -/
def toBits (x : Binary64) : Nat :=
  (if x.negative then Nat.pow 2 63 else 0) + x.exponent.val * Nat.pow 2 52 + x.fraction.val

/-- The infinity of the given sign. -/
def infinity (negative : Bool) : Binary64 :=
  ⟨negative, ⟨2047, by decide⟩, ⟨0, by decide⟩⟩

/-- The zero of the given sign. -/
def zero (negative : Bool) : Binary64 :=
  ⟨negative, ⟨0, by decide⟩, ⟨0, by decide⟩⟩

/-! ## Classes of numbers -/

/-- Neither an infinity nor a NaN. -/
def IsFinite (x : Binary64) : Prop :=
  x.exponent.val ≠ 2047

instance (x : Binary64) : Decidable x.IsFinite :=
  inferInstanceAs (Decidable (_ ≠ _))

/-- Not a number: the exponent field is full and the fraction is not zero. -/
def IsNaN (x : Binary64) : Prop :=
  x.exponent.val = 2047 ∧ x.fraction.val ≠ 0

instance (x : Binary64) : Decidable x.IsNaN :=
  inferInstanceAs (Decidable (_ ∧ _))

/-- A zero of either sign. -/
def IsZero (x : Binary64) : Prop :=
  x.exponent.val = 0 ∧ x.fraction.val = 0

instance (x : Binary64) : Decidable x.IsZero :=
  inferInstanceAs (Decidable (_ ∧ _))

/-! ## Exact values -/

/-- How many units of 2⁻¹⁰⁷⁴ the number one holds. -/
def unitsPerOne : Nat :=
  Nat.pow 2 1074

/-- The significand as a whole number, with the leading one that normal numbers leave unwritten. -/
def significand (x : Binary64) : Nat :=
  if x.exponent.val = 0 then x.fraction.val else Nat.pow 2 52 + x.fraction.val

/-- The last bit of the significand counts `2 ^ step` units. -/
def step (x : Binary64) : Nat :=
  x.exponent.val - 1

/-- The size of a finite number, in units of 2⁻¹⁰⁷⁴. -/
def units (x : Binary64) : Nat :=
  x.significand * Nat.pow 2 x.step

/-- The whole number that a finite number equals, if it equals one. -/
def toInt? (x : Binary64) : Option Int :=
  if x.IsFinite ∧ x.units % unitsPerOne = 0 then
    some (if x.negative then -(x.units / unitsPerOne : Nat) else (x.units / unitsPerOne : Nat))
  else
    none

/-- The whole number from -2⁶³ to 2⁶³ that a number equals, where 2⁶³ itself is brought down to the
largest signed 64-bit integer. -/
def toInt64? (x : Binary64) : Option Int :=
  x.toInt?.bind fun n =>
    if -Nat.pow 2 63 ≤ n ∧ n ≤ Nat.pow 2 63 then some (min n (Nat.pow 2 63 - 1)) else none

/-- Numeric equality: a NaN equals nothing, and the two zeros are equal. -/
def agrees (x y : Binary64) : Bool :=
  decide (¬x.IsNaN ∧ ¬y.IsNaN ∧ (x = y ∨ (x.IsZero ∧ y.IsZero)))

/-! ## Small facts -/

theorem toBits_ofBits {bits : Nat} (h : bits < Nat.pow 2 64) : (ofBits bits).toBits = bits := by
  simp only [Nat.pow_eq] at h
  simp only [ofBits, toBits, decide_eq_true_eq, Nat.pow_eq]
  split <;> omega

theorem ofBits_toBits (x : Binary64) : ofBits x.toBits = x := by
  obtain ⟨negative, ⟨e, he⟩, ⟨f, hf⟩⟩ := x
  have hf' : f < 2 ^ 52 := hf
  cases negative <;> simp only [ofBits, toBits, Binary64.mk.injEq, Fin.mk.injEq] <;>
    refine ⟨?_, ?_, ?_⟩ <;> simp <;> omega

/-- Numeric equality is symmetric. -/
theorem agrees_comm (x y : Binary64) : x.agrees y = y.agrees x := by
  simp only [agrees, decide_eq_decide]
  constructor <;> rintro ⟨hx, hy, h⟩ <;> exact ⟨hy, hx, h.imp Eq.symm And.symm⟩

/-- A number equals itself unless it is a NaN. -/
theorem agrees_self (x : Binary64) : x.agrees x = decide (¬x.IsNaN) := by
  simp [agrees]

end Binary64

end JsonFilter
