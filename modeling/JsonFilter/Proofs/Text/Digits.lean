import JsonFilter.Text.Digits
import Mathlib.Data.List.Basic
import Mathlib.Data.List.Induction
import Mathlib.Tactic.Ring

/-!
# Digit texts

The digits of a number are a digit text without a leading zero, and a digit text names a number place by
place.

* `Text.isWhole_ofNat`: what is written for a number;
* `Text.toNat_append`: the number of two digit texts behind each other;
* `Text.ofNat_toNat`: the text of the number of a digit text.
-/

namespace JsonFilter.Text

/-! ## Digit texts -/

/-- A text of digits, of which there is at least one. -/
def IsDigits (digits : List Char) : Prop :=
  digits ≠ [] ∧ ∀ c ∈ digits, c.isDigit = true

/-- A digit text without a leading zero. -/
def IsWhole (digits : List Char) : Prop :=
  IsDigits digits ∧ (digits.head? = some '0' → digits = ['0'])

theorem IsDigits.append {left right : List Char} (hleft : IsDigits left)
    (hright : ∀ c ∈ right, c.isDigit = true) : IsDigits (left ++ right) :=
  ⟨List.append_ne_nil_of_left_ne_nil hleft.1 _, List.forall_mem_append.mpr ⟨hleft.2, hright⟩⟩

theorem isDigit_of_mem_replicate {k : Nat} {c : Char} (h : c ∈ List.replicate k '0') :
    c.isDigit = true := by
  rw [List.eq_of_mem_replicate h]
  rfl

theorem isDigit_digitChar {n : Nat} (h : n < 10) : (Nat.digitChar n).isDigit = true := by
  decide +revert

/-- The digits of a number are digits. -/
theorem isDigits_ofNat (n : Nat) : IsDigits (ofNat n) := by
  induction n using Nat.strongRecOn with
  | ind n ih =>
    by_cases hn : n < 10
    · rw [ofNat, Nat.toDigits_of_lt_base hn]
      exact ⟨List.cons_ne_nil _ _, List.forall_mem_singleton.mpr (isDigit_digitChar hn)⟩
    · rw [ofNat, Nat.toDigits_of_base_le (by decide) (Nat.not_lt.mp hn)]
      refine (ih (n / 10) (by omega)).append (List.forall_mem_singleton.mpr ?_)
      exact isDigit_digitChar (Nat.mod_lt _ (by decide))

/-- Only the digit of zero is a leading zero. -/
theorem head?_ofNat_ne {n : Nat} (hn : n ≠ 0) : (ofNat n).head? ≠ some '0' := by
  induction n using Nat.strongRecOn with
  | ind n ih =>
    by_cases hlt : n < 10
    · rw [ofNat, Nat.toDigits_of_lt_base hlt, List.head?_cons, ne_eq, Option.some.injEq,
        Nat.digitChar_eq_zero]
      exact hn
    · rw [ofNat, Nat.toDigits_of_base_le (by decide) (Nat.not_lt.mp hlt),
        List.head?_append_of_ne_nil _ Nat.toDigits_ne_nil]
      exact ih (n / 10) (by omega) (by omega)

/-- The digits of a number have no leading zero. -/
theorem isWhole_ofNat (n : Nat) : IsWhole (ofNat n) := by
  refine ⟨isDigits_ofNat n, fun hhead => ?_⟩
  by_cases hn : n = 0
  · rw [hn]
    rfl
  · exact absurd hhead (head?_ofNat_ne hn)

theorem length_ofNat_pos (n : Nat) : 0 < (ofNat n).length :=
  Nat.length_toDigits_pos

/-- How many digits a number has. -/
theorem length_ofNat_le_iff {n k : Nat} (hk : 0 < k) : (ofNat n).length ≤ k ↔ n < 10 ^ k :=
  Nat.length_toDigits_le_iff (by decide) hk

/-- A greater number has no fewer digits. -/
theorem length_ofNat_mono {m n : Nat} (h : m ≤ n) : (ofNat m).length ≤ (ofNat n).length := by
  have hn : n < 10 ^ (ofNat n).length := (length_ofNat_le_iff (length_ofNat_pos n)).mp le_rfl
  exact (length_ofNat_le_iff (length_ofNat_pos n)).mpr (lt_of_le_of_lt h hn)

/-! ## Numbers of digit texts -/

/-- The digits behind others count as many places less. -/
theorem toNat_append (left right : List Char) :
    toNat (left ++ right) = toNat left * 10 ^ right.length + toNat right := by
  rw [toNat_eq, toNat_eq, toNat_eq, Nat.ofDigitChars_append, Nat.ofDigitChars_eq_ofDigitChars_zero]
  ring

theorem toNat_replicate_zero (k : Nat) : toNat (List.replicate k '0') = 0 := by
  induction k with
  | zero => rfl
  | succ k ih =>
    rw [List.replicate_succ', toNat_append, ih]
    rfl

/-! ## Texts of numbers of digit texts -/

theorem toNat_singleton (c : Char) : toNat [c] = c.toNat - '0'.toNat := by
  rw [toNat_eq, Nat.ofDigitChars_cons, Nat.ofDigitChars_nil, Nat.mul_zero, Nat.zero_add]

theorem toNat_singleton_lt {c : Char} (h : c.isDigit = true) : toNat [c] < 10 := by
  have hnine : c.toNat ≤ '0'.toNat + 9 := (Char.isDigit_iff_toNat.mp h).2
  rw [toNat_singleton]
  omega

/-- A digit is the digit of its number. -/
theorem digitChar_toNat {c : Char} (h : c.isDigit = true) : Nat.digitChar (toNat [c]) = c := by
  have hdigit : ∀ k < 10, Nat.digitChar k = Char.ofNat ('0'.toNat + k) := by decide
  rw [hdigit _ (toNat_singleton_lt h), toNat_singleton,
    Nat.add_sub_cancel' (Char.isDigit_iff_toNat.mp h).1, Char.ofNat_toNat]

/-- One more digit is written behind the digits of a number that is not zero. -/
theorem ofNat_mul_ten_add {n d : Nat} (hn : n ≠ 0) (hd : d < 10) :
    ofNat (n * 10 + d) = ofNat n ++ [Nat.digitChar d] := by
  have hdiv : (n * 10 + d) / 10 = n := by omega
  have hmod : (n * 10 + d) % 10 = d := by omega
  rw [ofNat, Nat.toDigits_of_base_le (by decide) (by omega), hdiv, hmod, ofNat]

/-- A digit text without a leading zero is what is written for its number. -/
theorem ofNat_toNat {digits : List Char} (h : IsWhole digits) : ofNat (toNat digits) = digits := by
  induction digits using List.reverseRecOn with
  | nil => exact absurd rfl h.1.1
  | append_singleton front last ih =>
    have hlast : last.isDigit = true := h.1.2 last (List.mem_append_right _ (List.mem_singleton_self _))
    have hlt := toNat_singleton_lt hlast
    have hchar := digitChar_toNat hlast
    by_cases hempty : front = []
    · rw [hempty, List.nil_append, ofNat, Nat.toDigits_of_lt_base hlt, hchar]
    · have hhead : (front ++ [last]).head? = front.head? := List.head?_append_of_ne_nil _ hempty
      have hne : front ++ [last] ≠ ['0'] := fun heq => by
        have hlength := congrArg List.length heq
        have hpos := List.length_pos_of_ne_nil hempty
        rw [List.length_append, List.length_singleton, List.length_singleton] at hlength
        omega
      have hfront : ofNat (toNat front) = front :=
        ih ⟨⟨hempty, fun c hc => h.1.2 c (List.mem_append_left _ hc)⟩,
          fun hzero => absurd (h.2 (hhead.trans hzero)) hne⟩
      have hnonzero : toNat front ≠ 0 := fun hzero => hne (h.2 (by rw [hhead, ← hfront, hzero]; rfl))
      rw [toNat_append, List.length_singleton, pow_one, ofNat_mul_ten_add hnonzero hlt, hfront, hchar]

end JsonFilter.Text
