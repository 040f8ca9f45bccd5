/-!
# Decimal digits

Whole numbers as lists of decimal digits.
-/

namespace JsonFilter.Text

/-! ## Writing -/

/-- The decimal digits of a natural number, without leading zeros. -/
def ofNat (n : Nat) : List Char :=
  Nat.toDigits 10 n

/-- The decimal digits of an integer, after a minus sign if it is negative. -/
def ofInt (n : Int) : List Char :=
  if n < 0 then '-' :: ofNat n.natAbs else ofNat n.natAbs

/-- The decimal text of an integer. -/
def decimal (n : Int) : String :=
  String.ofList (ofInt n)

/-! ## Reading -/

/-- A list in at most `count` pieces of `size` items, of which the last may be shorter. -/
def pieces {α : Type} (size : Nat) : Nat → List α → List (List α)
  | 0, _ => []
  | count + 1, items =>
    if items.isEmpty then [] else items.take size :: pieces size count (items.drop size)

/-- The natural number that a list of decimal digits names, read in pieces of eighteen digits, each
of which fits into a machine word. -/
def toNat (digits : List Char) : Nat :=
  (pieces 18 digits.length digits).foldl
    (fun n piece => Nat.pow 10 piece.length * n + Nat.ofDigitChars 10 piece 0) 0

/-- As many pieces as items are enough for the whole list. -/
theorem flatten_pieces {α : Type} {size count : Nat} {items : List α} (hs : 0 < size)
    (hc : items.length ≤ count) : (pieces size count items).flatten = items := by
  induction count generalizing items with
  | zero => simp [pieces, List.eq_nil_of_length_eq_zero (Nat.le_zero.1 hc)]
  | succ count ih =>
    cases items with
    | nil => rfl
    | cons item rest =>
      have : ((item :: rest).drop size).length ≤ count := by
        simp only [List.length_drop, List.length_cons] at hc ⊢
        omega
      simp only [pieces, List.isEmpty_cons, Bool.false_eq_true, if_false, List.flatten_cons, ih this]
      exact List.take_append_drop ..

/-- Reading by pieces is reading digit by digit. -/
theorem toNat_eq (digits : List Char) : toNat digits = Nat.ofDigitChars 10 digits 0 := by
  have key : ∀ (parts : List (List Char)) (n : Nat),
      parts.foldl (fun n piece => Nat.pow 10 piece.length * n + Nat.ofDigitChars 10 piece 0) n =
        Nat.ofDigitChars 10 parts.flatten n := by
    intro parts
    induction parts with
    | nil => exact fun n => Nat.ofDigitChars_nil.symm
    | cons part parts ih =>
      intro n
      rw [List.foldl_cons, ih, List.flatten_cons, Nat.ofDigitChars_append,
        Nat.pow_eq, ← Nat.ofDigitChars_eq_ofDigitChars_zero]
  rw [toNat, key, flatten_pieces (by decide) (Nat.le_refl _)]

/-- Reading the digits of a number gives the number. -/
theorem toNat_ofNat (n : Nat) : toNat (ofNat n) = n := by
  rw [toNat_eq]
  exact Nat.ofDigitChars_toDigits (by decide) (by decide)

end JsonFilter.Text
