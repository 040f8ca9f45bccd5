import JsonFilter.Proofs.Decimal.Point
import JsonFilter.Proofs.Decimal.Scaled
import JsonFilter.Proofs.Json.Locality

/-!
# The parts of numbers

The texts of integers and of finite doubles are read as the parts of a number that name the integer or the
double.  Which number a reader takes the parts for is a matter of its own.

* `Json.takeDigits_eq`: digits that fit into a word are taken at once;
* `Json.NumberParts.Spells`: the parts of a number name a decimal;
* `Json.exactNumber?`: the number that its parts name;
* `Json.exists_readParts_positional`, `Json.exists_readParts_scientific`: the layouts of a decimal name it;
* `Json.readNumber_text`, `Json.readNumber_ofInt`: the texts of finite doubles and of integers name them.
-/

namespace JsonFilter.Json

/-! ## The parts of a number -/

/-- The digits of a whole number are taken off at once. -/
theorem readWhole_of_isWhole {whole rest : List Char} (h : Text.IsWhole whole)
    (hrest : NoDigitAhead rest) : readWhole (whole ++ rest) = some (whole, rest) := by
  obtain ⟨hdigits, hzero⟩ := h
  cases whole with
  | nil => exact absurd rfl hdigits.1
  | cons c tail =>
    by_cases hc : c = '0'
    · rw [hzero (congrArg some hc)]
      rfl
    · rw [List.cons_append, readWhole.eq_2 _ fun _ heq => hc (List.cons.inj heq).1]
      exact readDigits_eq_some_iff.mpr ⟨rfl, hdigits, hrest⟩

theorem readFraction_point {decimals rest : List Char} (h : Text.IsDigits decimals)
    (hrest : NoDigitAhead rest) : readFraction ('.' :: (decimals ++ rest)) = some (some decimals, rest) := by
  rw [readFraction, readDigits_eq_some_iff.mpr ⟨rfl, h, hrest⟩]
  rfl

/-- The exponent of the scientific layout is read back. -/
theorem readExponent_sign (exponent : Int) :
    readExponent ('e' :: (if exponent < 0 then '-' else '+') :: Text.ofNat exponent.natAbs) =
      some (some exponent, []) := by
  have hdigits : readDigits (Text.ofNat exponent.natAbs) = some (Text.ofNat exponent.natAbs, []) :=
    readDigits_eq_some_iff.mpr ⟨(List.append_nil _).symm, Text.isDigits_ofNat _, nofun⟩
  split
  · next hneg =>
    rw [readExponent.eq_1, if_pos (Or.inl rfl), hdigits]
    simp only [Option.map_some, Text.toNat_ofNat, Option.some.injEq, Prod.mk.injEq, and_true]
    omega
  · next hneg =>
    rw [readExponent.eq_2, if_pos (Or.inl rfl), hdigits]
    simp only [Option.map_some, Text.toNat_ofNat, Option.some.injEq, Prod.mk.injEq, and_true]
    omega

/-- A number is put together from its parts. -/
theorem readUnsigned_eq {negative : Bool} {text afterWhole afterFraction rest whole : List Char}
    {fraction : Option (List Char)} {exponent : Option Int}
    (hwhole : readWhole text = some (whole, afterWhole))
    (hfraction : readFraction afterWhole = some (fraction, afterFraction))
    (hexponent : readExponent afterFraction = some (exponent, rest)) :
    readUnsigned negative text = some (⟨negative, whole, fraction, exponent⟩, rest) := by
  simp [readUnsigned, hwhole, hfraction, hexponent]

/-- A whole number is read as its digits. -/
theorem readUnsigned_of_isWhole (negative : Bool) {whole : List Char} (h : Text.IsWhole whole) :
    readUnsigned negative whole = some (⟨negative, whole, none, none⟩, []) := by
  have hwhole : readWhole (whole ++ []) = some (whole, []) := readWhole_of_isWhole h nofun
  rw [List.append_nil] at hwhole
  exact readUnsigned_eq hwhole rfl rfl

/-- A whole number and its decimals are read as such. -/
theorem readUnsigned_point (negative : Bool) {whole decimals : List Char} (hwhole : Text.IsWhole whole)
    (hdecimals : Text.IsDigits decimals) :
    readUnsigned negative (whole ++ '.' :: decimals) =
      some (⟨negative, whole, some decimals, none⟩, []) := by
  have hfraction : readFraction ('.' :: (decimals ++ [])) = some (some decimals, []) :=
    readFraction_point hdecimals nofun
  rw [List.append_nil] at hfraction
  exact readUnsigned_eq (readWhole_of_isWhole hwhole (noDigitAhead_cons.mpr rfl)) hfraction rfl

/-- A number without sign does not begin with a minus sign. -/
theorem readParts_of_readUnsigned {text rest : List Char} {parts : NumberParts}
    (h : readUnsigned false text = some (parts, rest)) : readParts text = some (parts, rest) := by
  unfold readParts
  split
  · cases h
  · exact h

/-- A number with a sign is read as the one without it. -/
theorem readParts_signed {negative : Bool} {size rest : List Char} {parts : NumberParts}
    (h : readUnsigned negative size = some (parts, rest)) :
    readParts (if negative then '-' :: size else size) = some (parts, rest) := by
  cases negative with
  | true => exact h
  | false => exact readParts_of_readUnsigned h

/-- A number is what its parts are taken for. -/
theorem readNumber_eq {number? : NumberParts → Option Json} {text rest : List Char} {parts : NumberParts}
    (h : readParts text = some (parts, rest)) :
    readNumber number? text = (number? parts).map fun number => (number, rest) := by
  rw [readNumber, h]
  exact (Option.map_eq_bind ..).symm

/-! ## What the parts name -/

namespace NumberParts

/-- The decimal with the digits of a number. -/
def decimal (parts : NumberParts) : Decimal :=
  let decimals := parts.fraction.getD []
  ⟨Text.toNat (parts.whole ++ decimals), parts.exponent.getD 0 - decimals.length⟩

/-- The parts of a number with a point or an exponent name a decimal, with the given sign. -/
structure Spells (parts : NumberParts) (negative : Bool) (d : Decimal) : Prop where
  sign : parts.negative = negative
  pointed : parts.fraction.isSome ∨ parts.exponent.isSome
  decimal : parts.decimal = d

theorem Spells.not_isNone {parts : NumberParts} {negative : Bool} {d : Decimal}
    (h : parts.Spells negative d) : ¬(parts.fraction.isNone ∧ parts.exponent.isNone) := by
  rintro ⟨hfraction, hexponent⟩
  have hpointed := h.pointed
  rw [Option.isNone_iff_eq_none.mp hfraction, Option.isNone_iff_eq_none.mp hexponent] at hpointed
  rcases hpointed with hsome | hsome <;> cases hsome

end NumberParts

/-- The number that its parts name: without point and exponent an integer of any size, and otherwise the
double nearest to the decimal. -/
def exactNumber? (parts : NumberParts) : Option Json :=
  if parts.fraction.isNone ∧ parts.exponent.isNone then
    some (integer (if parts.negative then -(Text.toNat parts.whole : Int) else Text.toNat parts.whole))
  else some (float (parts.decimal.toBinary64 parts.negative))

theorem NumberParts.Spells.exactNumber?_eq {parts : NumberParts} {negative : Bool} {d : Decimal}
    (h : parts.Spells negative d) : exactNumber? parts = some (float (d.toBinary64 negative)) := by
  rw [exactNumber?, if_neg h.not_isNone, h.decimal, h.sign]

/-! ## Short decimals -/

/-- Digits that fit into a word are taken at once. -/
theorem takeDigits_eq {word : Fin (Nat.pow 2 64)} {digits : List Char}
    (h : Nat.ofDigitChars 10 digits word < Nat.pow 2 64) :
    takeDigits word digits = (⟨Nat.ofDigitChars 10 digits word, h⟩, []) := by
  induction digits generalizing word with
  | nil => simp [takeDigits]
  | cons c rest ih =>
    rw [Nat.ofDigitChars_cons] at h
    have hnext : 10 * word.val + (c.toNat - '0'.toNat) < Nat.pow 2 64 := by
      refine Nat.lt_of_le_of_lt ?_ h
      rw [Nat.ofDigitChars_eq_ofDigitChars_zero]
      exact Nat.le_add_right_of_le (Nat.le_mul_of_pos_left _ (Nat.pow_pos (by decide)))
    rw [takeDigits, dif_pos hnext, ih h]
    simp only [Nat.ofDigitChars_cons]

theorem takeDigits_of_toNat_lt {digits : List Char} (h : Text.toNat digits < Nat.pow 2 64) :
    takeDigits 0 digits = (⟨Text.toNat digits, h⟩, []) := by
  have hvalue : Text.toNat digits = Nat.ofDigitChars 10 digits (0 : Fin (Nat.pow 2 64)).val :=
    Text.toNat_eq digits
  simp only [hvalue] at h ⊢
  exact takeDigits_eq h

namespace NumberParts

/-- The decimal of digits that fit into a word is the one that they name. -/
theorem shortDecimal_eq {parts : NumberParts} (h : parts.decimal.digits < Nat.pow 2 64) :
    parts.shortDecimal = ⟨⟨parts.decimal.digits, h⟩, parts.decimal.exponent⟩ := by
  obtain ⟨negative, whole, fraction, exponent⟩ := parts
  unfold decimal at h ⊢
  unfold shortDecimal
  dsimp only at h ⊢
  generalize fraction.getD [] = decimals at h ⊢
  have happend : Text.toNat (whole ++ decimals) = Nat.ofDigitChars 10 decimals (Text.toNat whole) := by
    rw [Text.toNat_eq, Text.toNat_eq, Nat.ofDigitChars_append]
  have hwhole : Text.toNat whole < Nat.pow 2 64 := by
    refine Nat.lt_of_le_of_lt ?_ h
    rw [Text.toNat_append]
    exact Nat.le_add_right_of_le (Nat.le_mul_of_pos_right _ (Nat.pow_pos (by decide)))
  have hall : Nat.ofDigitChars 10 decimals (⟨Text.toNat whole, hwhole⟩ : Fin (Nat.pow 2 64)).val <
      Nat.pow 2 64 := happend ▸ h
  simp only [takeDigits_of_toNat_lt hwhole, takeDigits_eq hall, happend, List.length_nil]
  congr 1
  omega

/-- Digits of 53 bits with at most 22 places or zeros are read as the double that they name. -/
theorem Spells.ofNumberParts?_eq {parts : NumberParts} {negative : Bool} {d : Decimal}
    (h : parts.Spells negative d) (hdigits : d.digits < 2 ^ 53) (hexponent : d.exponent.natAbs ≤ 22) :
    ofNumberParts? parts = some (float (d.toBinary64 negative)) := by
  have hpointed := h.not_isNone
  obtain ⟨rfl, -, rfl⟩ := h
  have hfits : parts.decimal.digits < Nat.pow 2 64 := Nat.lt_trans hdigits (by decide)
  unfold ofNumberParts?
  dsimp only
  rw [if_neg fun ⟨hfraction, hexponent, _⟩ => hpointed ⟨hfraction, hexponent⟩, ofDecimal?,
    shortDecimal_eq hfits, ShortDecimal.scaled?_eq_toBinary64 _ hdigits hexponent]
  rfl

end NumberParts

/-! ## Layouts -/

/-- Digits in front of or around the point name the decimal. -/
theorem exists_readParts_positional (negative : Bool) {p : PointedDigits} (hp : p.Significant)
    (hpoint : p.point < p.digits.length) (whole : List Char) :
    ∃ parts, readUnsigned negative (p.positional whole) = some (parts, []) ∧
      parts.Spells negative p.value := by
  obtain ⟨front, back, htext, hfront, hback, hvalue⟩ :=
    PointedDigits.exists_positional_eq hp hpoint whole
  rw [htext, readUnsigned_point negative hfront hback]
  refine ⟨_, rfl, rfl, Or.inl rfl, ?_⟩
  rw [← hvalue, NumberParts.decimal, Option.getD_none, Int.zero_sub]
  rfl

/-- The digits of a whole number with a point name ten times as much with one place. -/
theorem readUnsigned_positional_of_le (negative : Bool) {p : PointedDigits} (hp : p.Significant)
    (hpoint : p.digits.length ≤ p.point) :
    readUnsigned negative (p.positional ['.', '0']) =
      some (⟨negative, p.padded, some ['0'], none⟩, []) := by
  rw [PointedDigits.positional_of_le hp hpoint]
  exact readUnsigned_point negative hp.isWhole_padded (Text.isDigits_ofNat 0)

/-- A whole number in a positional layout without a point is read as its digits. -/
theorem readUnsigned_positional_nil (negative : Bool) {p : PointedDigits} (hp : p.Significant)
    (hpoint : p.digits.length ≤ p.point) :
    readUnsigned negative (p.positional []) = some (⟨negative, p.padded, none, none⟩, []) := by
  rw [PointedDigits.positional_of_le hp hpoint, List.append_nil]
  exact readUnsigned_of_isWhole negative hp.isWhole_padded

/-- The scientific layout names the decimal: the exponent moves the point to its place. -/
theorem exists_readParts_scientific (negative : Bool) {p : PointedDigits} (hp : p.Significant) :
    ∃ parts, readUnsigned negative p.scientific = some (parts, []) ∧ parts.Spells negative p.value := by
  obtain ⟨digits, point⟩ := p
  obtain ⟨⟨hdigits, hleading⟩, -⟩ := hp
  dsimp only at hdigits hleading
  have hexponent := readExponent_sign (point - 1)
  have hbehind : NoDigitAhead ('e' :: (if point - 1 < 0 then '-' else '+') ::
      Text.ofNat (point - 1).natAbs) := noDigitAhead_cons.mpr rfl
  match digits with
  | [] => exact absurd rfl hdigits.1
  | [first] =>
    have hwhole : Text.IsWhole [first] := ⟨hdigits, fun h => hleading h⟩
    refine ⟨_, readUnsigned_eq (readWhole_of_isWhole hwhole hbehind) rfl hexponent, rfl, Or.inr rfl, ?_⟩
    show (⟨Text.toNat [first], point - 1 - (0 : Nat)⟩ : Decimal) = ⟨Text.toNat [first], _⟩
    congr 1
    simp only [List.length_cons, List.length_nil]
    omega
  | first :: second :: rest =>
    obtain ⟨hfirst, hothers⟩ := List.forall_mem_cons.mp hdigits.2
    have hwhole : Text.IsWhole [first] :=
      ⟨⟨List.cons_ne_nil _ _, List.forall_mem_singleton.mpr hfirst⟩,
        fun h => congrArg (fun c => [c]) (Option.some.inj h)⟩
    have hdecimals : Text.IsDigits (second :: rest) := ⟨List.cons_ne_nil _ _, hothers⟩
    have hread : readUnsigned negative (PointedDigits.scientific ⟨first :: second :: rest, point⟩) =
        some (⟨negative, [first], some (second :: rest), some (point - 1)⟩, []) :=
      readUnsigned_eq (readWhole_of_isWhole hwhole (noDigitAhead_cons.mpr rfl))
        (readFraction_point hdecimals hbehind) hexponent
    refine ⟨_, hread, rfl, Or.inl rfl, ?_⟩
    show (⟨Text.toNat (first :: second :: rest), point - 1 - (second :: rest).length⟩ : Decimal) =
      ⟨Text.toNat (first :: second :: rest), _⟩
    congr 1
    simp only [List.length_cons]
    omega

/-! ## Doubles -/

/-- The text of a double names its shortest decimal, unless it is written out as a whole number. -/
theorem exists_readParts_text (layout : FloatLayout) {x : Binary64}
    (h : layout.isPositional (x.shortestDecimal layout.tie).pointed.point = true →
      (x.shortestDecimal layout.tie).pointed.point < (x.shortestDecimal layout.tie).pointed.digits.length) :
    ∃ parts, readParts (layout.text x) = some (parts, []) ∧
      parts.Spells x.negative (x.shortestDecimal layout.tie).pointed.value := by
  have hp := (x.shortestDecimal layout.tie).significant_pointed
  by_cases hpositional : layout.isPositional (x.shortestDecimal layout.tie).pointed.point = true
  · obtain ⟨parts, hread, hspells⟩ :=
      exists_readParts_positional x.negative hp (h hpositional) layout.whole
    rw [FloatLayout.text, if_pos hpositional]
    exact ⟨parts, readParts_signed hread, hspells⟩
  · obtain ⟨parts, hread, hspells⟩ := exists_readParts_scientific x.negative hp
    rw [FloatLayout.text, if_neg hpositional]
    exact ⟨parts, readParts_signed hread, hspells⟩

/-- The compact text of a finite double is read as parts that name the double. -/
theorem exists_readParts_compact {x : Binary64} (hx : x.IsFinite) :
    ∃ parts d, readParts (FloatLayout.compact.text x) = some (parts, []) ∧
      parts.Spells x.negative d ∧ d.toBinary64 x.negative = x := by
  have hp := (x.shortestDecimal .toEven).significant_pointed
  have hname := Binary64.toBinary64_pointed_shortestDecimal hx .toEven
  by_cases h : FloatLayout.compact.isPositional (x.shortestDecimal .toEven).pointed.point = true →
      (x.shortestDecimal .toEven).pointed.point < (x.shortestDecimal .toEven).pointed.digits.length
  · obtain ⟨parts, hread, hspells⟩ := exists_readParts_text .compact h
    exact ⟨parts, _, hread, hspells, hname⟩
  · obtain ⟨hpositional, hpoint⟩ := Classical.not_imp.mp h
    have hread := readUnsigned_positional_of_le x.negative hp (Int.not_lt.mp hpoint)
    rw [FloatLayout.text_of_isPositional hpositional]
    refine ⟨_, _, readParts_signed hread, ⟨rfl, Or.inl rfl, rfl⟩, ?_⟩
    -- The zero behind the point is one more that goes into the exponent.
    generalize (x.shortestDecimal .toEven).pointed = p at hname hpoint
    have hzero : Text.toNat (p.padded ++ ['0']) = Text.toNat (p.padded) * 10 ^ 1 :=
      Text.toNat_append _ _
    show (⟨Text.toNat (p.padded ++ ['0']), 0 - (1 : Nat)⟩ : Decimal).toBinary64 x.negative = x
    rw [hzero, Decimal.toBinary64_shift]
    exact (PointedDigits.toBinary64_padded x.negative (Int.not_lt.mp hpoint)).trans hname

/-- The compact text of a finite double names the double. -/
theorem readNumber_text {x : Binary64} (hx : x.IsFinite) :
    readNumber exactNumber? (FloatLayout.compact.text x) = some (float x, []) := by
  obtain ⟨parts, d, hread, hspells, hname⟩ := exists_readParts_compact hx
  rw [readNumber_eq hread, hspells.exactNumber?_eq, hname]
  rfl

/-! ## Integers -/

/-- What is written for an integer is its sign and its digits. -/
theorem readParts_ofInt (n : Int) :
    readParts (Text.ofInt n) = some (⟨decide (n < 0), Text.ofNat n.natAbs, none, none⟩, []) := by
  have hsize := readUnsigned_of_isWhole (decide (n < 0)) (Text.isWhole_ofNat n.natAbs)
  have htext : Text.ofInt n =
      if decide (n < 0) then '-' :: Text.ofNat n.natAbs else Text.ofNat n.natAbs := by
    simp only [Text.ofInt, decide_eq_true_eq]
  rw [htext]
  exact readParts_signed hsize

/-- The text of an integer names the integer. -/
theorem readNumber_ofInt (n : Int) :
    readNumber exactNumber? (Text.ofInt n) = some (integer n, []) := by
  rw [readNumber_eq (readParts_ofInt n), exactNumber?, if_pos ⟨rfl, rfl⟩, Option.map_some]
  simp only [decide_eq_true_eq, Text.toNat_ofNat, Option.some.injEq, Prod.mk.injEq, integer.injEq,
    and_true]
  split <;> omega

end JsonFilter.Json
