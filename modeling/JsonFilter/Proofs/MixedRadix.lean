import Mathlib.Algebra.BigOperators.Group.List.Basic

/-!
# Mixed radix

A number below a product of radices has one digit for each radix, with the first radix for the most significant
digit.  So a list of blocks of one size is counted by the number of the block and the place in it.

* `MixedRadix.digits`, `MixedRadix.value`: the digits of a number, and the number with some digits;
* `MixedRadix.value_digits`: digits stand for their number;
* `MixedRadix.getElem?_flatMap`: the items of blocks of one size.
-/

namespace JsonFilter.MixedRadix

universe u v

variable {α : Type u} {β : Type v}

/-- The digits of a number, the most significant one first. -/
def digits : List Nat → Nat → List Nat
  | [], _ => []
  | _ :: rest, n => n / rest.prod :: digits rest (n % rest.prod)

/-- The number with some digits, the most significant one first. -/
def value : List Nat → List Nat → Nat
  | _ :: rest, digit :: others => digit * rest.prod + value rest others
  | _, _ => 0

/-- A number below a product is below a multiple of the other factors, which are not zero. -/
theorem div_lt_and_mod_lt {radix size n : Nat} (h : n < radix * size) :
    0 < size ∧ n / size < radix ∧ n % size < size := by
  have hsize : 0 < size := Nat.pos_of_mul_pos_left (Nat.zero_lt_of_lt h)
  exact ⟨hsize, Nat.div_lt_of_lt_mul (Nat.mul_comm radix size ▸ h), Nat.mod_lt n hsize⟩

/-- The digits of a number have the number as their value. -/
theorem value_digits {radices : List Nat} {n : Nat} (h : n < radices.prod) :
    value radices (digits radices n) = n := by
  induction radices generalizing n with
  | nil =>
    rw [List.prod_nil, Nat.lt_one_iff] at h
    exact h.symm
  | cons radix rest ih =>
    rw [List.prod_cons] at h
    obtain ⟨-, -, hmod⟩ := div_lt_and_mod_lt h
    rw [digits, value, ih hmod]
    exact Nat.div_add_mod' n rest.prod

/-- Each digit is less than its radix. -/
theorem digits_lt {radices : List Nat} {n : Nat} (h : n < radices.prod) :
    List.Forall₂ (· < ·) (digits radices n) radices := by
  induction radices generalizing n with
  | nil => exact .nil
  | cons radix rest ih =>
    rw [List.prod_cons] at h
    obtain ⟨-, hdiv, hmod⟩ := div_lt_and_mod_lt h
    exact .cons hdiv (ih hmod)

/-- An item of blocks of one size stands in the block with the number of the quotient, at the place of the
remainder. -/
theorem getElem?_flatMap {block : α → List β} {size : Nat} (hblock : ∀ item, (block item).length = size)
    (hsize : 0 < size) (items : List α) (n : Nat) :
    (items.flatMap block)[n]? = items[n / size]?.bind fun item => (block item)[n % size]? := by
  induction items generalizing n with
  | nil => rfl
  | cons item rest ih =>
    rw [List.flatMap_cons]
    rcases Nat.lt_or_ge n size with hlt | hge
    · rw [List.getElem?_append_left (by rw [hblock]; exact hlt), Nat.div_eq_of_lt hlt, Nat.mod_eq_of_lt hlt]
      rfl
    · have hdiv : n / size = (n - size) / size + 1 := Nat.div_eq_sub_div hsize hge
      rw [List.getElem?_append_right (by rw [hblock]; exact hge), hblock, ih, hdiv, List.getElem?_cons_succ,
        ← Nat.mod_eq_sub_mod hge]

end JsonFilter.MixedRadix
