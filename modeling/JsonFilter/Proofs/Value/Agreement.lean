import JsonFilter.Proofs.Decimal.Point
import JsonFilter.Proofs.Value.RoundTrip
import JsonFilter.Proofs.Value.TextEquality

/-!
# Where the two texts agree

The compact and the plain text of a value stand for the same value where the numbers in both read back.  They
are the same text where strings need no letters of one style only, and numbers are neither so great nor so small
that one style writes their digits out and the other does not.  What remains are ties: a number half-way between
its two shortest decimals is written as the one in the compact text and as the other in the plain text, and the
two need not be read as the same number.

* `Value.HasText`: the strings and names of a value;
* `Binary64.IsModerate`: the numbers for which both styles choose the same layout;
* `FloatLayout.text_plain_eq_text_compact_iff`, `Value.plainNumber_eq_compactNumber_iff`: texts of numbers;
* `Value.readable_plain`, `Value.readsBack_plain`: the plain style is readable, and numbers with few digits read
  back from it;
* `Value.writer_congr`: styles that agree on the parts of a value;
* `Value.plainText_agrees_compactText`: the two texts of all values.
-/

namespace JsonFilter

/-! ## Numbers -/

/-- Not finite, or whole and below 10¹⁷ in size, or not whole and at least 10⁻⁵ in size. -/
def Binary64.IsModerate (x : Binary64) : Prop :=
  ¬x.IsFinite ∨ (∃ n, x.toInt? = some n ∧ n.natAbs < 10 ^ 17) ∨
    x.IsFinite ∧ x.toInt? = none ∧ unitsPerOne ≤ x.units * 10 ^ 5

namespace FloatLayout

variable {x : Binary64}

/-- A double that is not whole and not too small has the same text in both layouts exactly if it is not
half-way between its two shortest decimals. -/
theorem text_plain_eq_text_compact_iff (hx : x.IsFinite) (hwhole : x.toInt? = none)
    (hsize : Binary64.unitsPerOne ≤ x.units * 10 ^ 5) : plain.text x = compact.text x ↔ ¬x.IsTied := by
  have hzero := Binary64.not_isZero_of_toInt? hwhole
  have hplain : plain.isPositional (x.shortestDecimal .away).pointed.point = true := rfl
  have hcompact : compact.isPositional (x.shortestDecimal .toEven).pointed.point = true :=
    decide_eq_true ⟨Binary64.lt_point hx hzero hsize _, Binary64.point_le hx hwhole _⟩
  have hsizes : plain.text x = compact.text x ↔
      (x.shortestDecimal .away).pointed.positional [] =
        (x.shortestDecimal .toEven).pointed.positional ['.', '0'] := by
    rw [text_of_isPositional hplain, text_of_isPositional hcompact]
    cases x.negative with
    | true => exact List.cons_inj_right _
    | false => exact Iff.rfl
  rw [hsizes, ← Binary64.shortestDecimal_toEven_ne_away_iff hx, not_ne_iff]
  constructor
  · intro h
    have hvalue := PointedDigits.value_eq_of_positional_eq (Decimal.significant_pointed _)
      (Decimal.significant_pointed _) (Binary64.point_lt_length hx hwhole _)
      (Binary64.point_lt_length hx hwhole _) h
    have hdigits := fun tie =>
      Binary64.digits_ne_zero (Binary64.toBinary64_shortestDecimal hx tie) hzero
    refine (Decimal.eq_of_value_pointed_eq (hdigits _) (hdigits _) ?_ hvalue).symm
    rw [Binary64.exponent_shortestDecimal hx, Binary64.exponent_shortestDecimal hx]
  · intro h
    rw [h]
    exact PointedDigits.positional_congr (Binary64.point_lt_length hx hwhole _) _ _

/-- The plain layout of a double is read as the parts of a number. -/
theorem exists_readParts_plain (x : Binary64) :
    ∃ parts, Json.readParts (plain.text x) = some (parts, []) := by
  rcases Int.lt_or_le (x.shortestDecimal .away).pointed.point
    (x.shortestDecimal .away).pointed.digits.length with hpoint | hpoint
  · obtain ⟨parts, hread, -⟩ := Json.exists_readParts_text plain fun _ => hpoint
    exact ⟨parts, hread⟩
  · have hread := Json.readUnsigned_positional_nil x.negative
      (x.shortestDecimal .away).significant_pointed hpoint
    rw [text_of_isPositional rfl]
    exact ⟨_, Json.readParts_signed hread⟩

end FloatLayout

namespace Value

/-! ## The plain style -/

/-- The digits of a whole number of 64 bits are read as the number, whether as an integer or, behind a minus
sign, beyond the integers. -/
theorem readsAs_plainText_whole {x : Binary64} (hzero : ¬x.IsZero) {n : Int} (hn : x.toInt? = some n)
    (hsize : n.natAbs < 2 ^ 64) : ReadsAs (FloatLayout.plain.text x) x := by
  obtain ⟨hx, hunits, -⟩ := Binary64.units_of_toInt? hn
  have hp := (x.shortestDecimal .away).significant_pointed
  have hpoint := Binary64.length_le_point hzero hn .away
  have hname := Binary64.toBinary64_pointed_shortestDecimal hx .away
  rw [← PointedDigits.toBinary64_padded _ hpoint] at hname
  have hfits : Text.toNat (x.shortestDecimal .away).pointed.padded < 2 ^ 64 := by
    refine Binary64.lt_of_toBinary64_whole hx hname ?_
    rw [hunits]
    exact Nat.mul_lt_mul_of_pos_right hsize Binary64.unitsPerOne_pos
  obtain ⟨document, hnumber, hdocument⟩ := exists_ofNumberParts?_whole x.negative hfits
  rw [Decimal.toBinary64_whole] at hname
  refine ⟨document, ?_, hdocument.trans (congrArg number hname)⟩
  have hread := Json.readParts_signed (Json.readUnsigned_positional_nil x.negative hp hpoint)
  rw [FloatLayout.text_of_isPositional rfl]
  exact (Json.readNumber_eq hread).trans (congrArg (Option.map _) hnumber)

/-- The plain style is readable. -/
theorem readable_plain : Style.plain.Readable where
  letters := Text.readable_fewLetters
  parts {x} hx := by
    show ∃ parts, Json.readParts (plainNumber x) = some (parts, [])
    unfold plainNumber
    rw [if_pos hx]
    cases x.toInt? with
    | some n =>
      dsimp only
      split
      · exact ⟨_, Json.readParts_ofInt n⟩
      · exact FloatLayout.exists_readParts_plain x
    | none => exact FloatLayout.exists_readParts_plain x
  whole {x n} hx hn := by
    obtain ⟨m, hm, hn⟩ := Option.bind_eq_some_iff.mp hn
    obtain ⟨hrange, -⟩ := Option.ite_none_right_eq_some.mp hn
    have hsize : m.natAbs < 2 ^ 64 := by
      simp only [Nat.pow_eq] at hrange
      omega
    show ReadsAs (plainNumber x) x.unsignZero
    unfold plainNumber
    rw [if_pos hx, hm]
    dsimp only
    split
    · rw [← Binary64.ofInt_of_toInt? hm]
      exact readsAs_ofInt hsize
    · next hlarge =>
      have hzero : ¬x.IsZero := by
        intro h
        rw [Binary64.toInt?_of_isZero h] at hm
        obtain rfl := Option.some.inj hm
        exact hlarge (Nat.pow_pos (by decide))
      rw [Binary64.unsignZero_of_not_isZero hzero]
      exact readsAs_plainText_whole hzero hm hsize
  notFinite hx := if_neg hx

/-- Numbers with few digits read back from their plain texts. -/
theorem readsBack_plain {x : Binary64} (hx : x.IsFinite) (hwhole : x.toInt? = none)
    (hdigits : (x.shortestDecimal .away).pointed.value.digits < 2 ^ 53)
    (hplaces : (x.shortestDecimal .away).pointed.value.exponent.natAbs ≤ 22) : Style.plain.ReadsBack x := by
  have hstyle : Style.plain.number x = FloatLayout.plain.text x := by
    show plainNumber x = _
    rw [plainNumber, if_pos hx, hwhole]
  exact Style.readsBack_of_text hx hwhole hstyle hdigits hplaces

/-! ## Numbers of both styles -/

/-- A moderate number has the same text in both styles exactly if it is whole or no tie. -/
theorem plainNumber_eq_compactNumber_iff {x : Binary64} (h : x.IsModerate) :
    plainNumber x = compactNumber x ↔ (x.IsFinite → x.toInt? = none → ¬x.IsTied) := by
  unfold plainNumber compactNumber
  rcases h with hx | ⟨n, hn, hsize⟩ | ⟨hx, hwhole, hsize⟩
  · rw [if_neg hx, if_neg hx]
    exact iff_of_true rfl fun hfinite => absurd hfinite hx
  · have hint : x.toInt64? = some n := by
      rw [Binary64.toInt64?, hn, Option.bind_some, Nat.pow_eq, if_pos (by omega), min_eq_left (by omega)]
    rw [hn, hint]
    refine iff_of_true (congrArg (if x.IsFinite then · else Text.nullWord) (if_pos hsize)) ?_
    exact fun _ hnone => absurd hnone (Option.some_ne_none n)
  · have hint : x.toInt64? = none := by
      rw [Binary64.toInt64?, hwhole, Option.bind_none]
    rw [hwhole, hint, if_pos hx, if_pos hx]
    refine (FloatLayout.text_plain_eq_text_compact_iff hx hwhole hsize).trans ?_
    exact ⟨fun htie _ _ => htie, fun htie => htie hx rfl⟩

/-- The texts of a number are those of its style. -/
theorem plainText_number_eq_iff {x : Binary64} :
    (number x).plainText = (number x).compactText ↔ plainNumber x = compactNumber x := by
  unfold plainText compactText writer Text.put
  rw [String.ofList_inj, List.append_nil, List.append_nil]
  rfl

/-! ## Values -/

/-- A text occurs in a value, as a string or as a name, however deep. -/
inductive HasText (text : String) : Value → Prop
  | string : HasText text (string text)
  | item {items : List Value} {item : Value} (mem : item ∈ items) (h : HasText text item) :
      HasText text (array items)
  | name {fields : List (String × Value)} {field : String × Value} (mem : field ∈ fields)
      (h : field.1 = text) : HasText text (object fields)
  | field {fields : List (String × Value)} {field : String × Value} (mem : field ∈ fields)
      (h : HasText text field.2) : HasText text (object fields)

/-- Styles that agree on the texts and on the numbers of a value agree on the value. -/
theorem writer_congr {style style' : Style} {value : Value}
    (htext : ∀ text, value.HasText text →
      Text.quote style.letters text.toList = Text.quote style'.letters text.toList)
    (hnumber : ∀ x, value.HasNumber x → style.number x = style'.number x) :
    value.writer style = value.writer style' := by
  induction value using Value.induction with
  | null => rfl
  | bool b => rfl
  | number x => rw [writer, writer, hnumber x .number]
  | string text => rw [writer, writer, htext text .string]
  | array items ih =>
    rw [writer, writer, itemWriters_eq_map, itemWriters_eq_map]
    refine congrArg Text.bracketed (List.map_congr_left fun item mem => ?_)
    exact ih item mem (fun text h => htext text (.item mem h)) fun x h => hnumber x (.item mem h)
  | object fields ih =>
    rw [writer, writer, fieldWriters_eq_map, fieldWriters_eq_map]
    refine congrArg Text.braced (List.map_congr_left fun field mem => ?_)
    rw [fieldWriter, fieldWriter, htext field.1 (.name mem rfl),
      ih field mem (fun text h => htext text (.field mem h)) fun x h => hnumber x (.field mem h)]

theorem plainText_eq_compactText {value : Value}
    (htext : ∀ text, value.HasText text → '\x08' ∉ text.toList ∧ '\x0c' ∉ text.toList)
    (hnumber : ∀ x, value.HasNumber x →
      x.IsModerate ∧ (x.IsFinite → x.toInt? = none → ¬x.IsTied)) :
    value.plainText = value.compactText := by
  have hwriter : value.writer .plain = value.writer .compact :=
    writer_congr (fun text h => Text.quote_fewLetters_eq (htext text h).1 (htext text h).2)
      fun x h => (plainNumber_eq_compactNumber_iff (hnumber x h).1).mpr (hnumber x h).2
  rw [plainText, compactText, hwriter]

/-- If the numbers of a value read back from their texts in both styles, its names are distinct, and it nests
at most 127 deep, the plain and the compact text of the value are both read back, and as the same value: with
null for every number that is not finite and without the signs of zeros.  The texts are the same if no string
or name has a backspace or a form feed, and every number is not finite, or whole and below 10¹⁷ in size, or not
whole and at least 10⁻⁵ in size, provided that none which is not whole is exactly half-way between its two
shortest decimals, of which the lower is even.  Those numbers have two texts. -/
theorem plainText_agrees_compactText :
    (∀ value : Value, value.DistinctNames → value.NumbersReadBack .plain →
      value.NumbersReadBack .compact → value.nesting ≤ 127 →
      parse? value.plainText = some value.normalize ∧ parse? value.compactText = some value.normalize ∧
      (value.normalize == value.normalize) = true) ∧
    (∀ value : Value,
      (∀ text, value.HasText text → '\x08' ∉ text.toList ∧ '\x0c' ∉ text.toList) →
      (∀ x, value.HasNumber x → x.IsModerate ∧ (x.IsFinite → x.toInt? = none → ¬x.IsTied)) →
      value.plainText = value.compactText) ∧
    ∀ x : Binary64, x.IsModerate → x.IsFinite → x.toInt? = none → x.IsTied →
      (number x).plainText ≠ (number x).compactText := by
  refine ⟨fun value hnames hplain hcompact hnesting => ⟨?_, ?_, ?_⟩, fun value => plainText_eq_compactText,
    fun x hmoderate hx hwhole htie hsame => ?_⟩
  · exact parse?_writer readable_plain hnames hplain hnesting
  · exact parse?_writer readable_compact hnames hcompact hnesting
  · exact beq_self_iff.mpr (wellFormed_normalize hnames).nanFree
  · rw [plainText_number_eq_iff, plainNumber_eq_compactNumber_iff hmoderate] at hsame
    exact hsame hx hwhole htie

/-- An infinity and a half under a name with a line feed, and a quarter above 10¹⁵. -/
theorem plainText_agrees_compactText_half :
    parse? (plainText
        (object [("a\n", array [number (.infinity true), number (.ofBits 0x3fe0000000000000)])])) =
      some (object [("a\n", array [null, number (.ofBits 0x3fe0000000000000)])]) ∧
    plainText (object [("a\n", array [number (.infinity true), number (.ofBits 0x3fe0000000000000)])]) =
      compactText
        (object [("a\n", array [number (.infinity true), number (.ofBits 0x3fe0000000000000)])]) ∧
    plainText (number (.ofBits 0x430c6bf526340002)) ≠
      compactText (number (.ofBits 0x430c6bf526340002)) := by
  obtain ⟨hread, hsame, hdiffer⟩ := plainText_agrees_compactText
  have hnumber : ∀ x, HasNumber x
      (object [("a\n", array [number (.infinity true), number (.ofBits 0x3fe0000000000000)])]) →
        x = .infinity true ∨ x = .ofBits 0x3fe0000000000000 := by
    simp [hasNumber_object_iff, hasNumber_array_iff]
  refine ⟨?_, hsame _ ?_ ?_, hdiffer _ ?_ ?_ ?_ ?_⟩
  · have hnames : DistinctNames
        (object [("a\n", array [number (.infinity true), number (.ofBits 0x3fe0000000000000)])]) := by
      refine .object (by decide) (List.forall_mem_singleton.mpr (.array ?_))
      exact List.forall_mem_cons.mpr ⟨.number _, List.forall_mem_singleton.mpr (.number _)⟩
    refine (hread _ hnames (fun x hmem hx _ => ?_) (fun x hmem hx _ => ?_) (by decide)).1
    · rcases hnumber x hmem with rfl | rfl
      · exact absurd hx (by decide)
      · decide +kernel
    · rcases hnumber x hmem with rfl | rfl
      · exact absurd hx (by decide)
      · decide +kernel
  · rintro text (_ | _ | ⟨mem, rfl⟩ | ⟨mem, h⟩)
    · rw [List.mem_singleton.mp mem]
      decide
    · rw [List.mem_singleton.mp mem] at h
      obtain _ | ⟨hitem, h⟩ := h
      simp only [List.mem_cons, List.not_mem_nil, or_false] at hitem
      rcases hitem with rfl | rfl <;> cases h
  · intro x hmem
    rcases hnumber x hmem with rfl | rfl
    · exact ⟨Or.inl (by decide), fun hx => absurd hx (by decide)⟩
    · refine ⟨Or.inr (Or.inr (by decide +kernel)), fun hx _ => ?_⟩
      rw [← Binary64.shortestDecimal_toEven_ne_away_iff hx]
      decide +kernel
  · exact Or.inr (Or.inr (by decide +kernel))
  · decide
  · decide +kernel
  · exact (Binary64.shortestDecimal_toEven_ne_away_iff (by decide)).mp (by decide +kernel)

/-- The number 1000000000000000.25 is half-way between decimals with one place, and the greater of them is read
as the next double. -/
theorem plainText_ne_compactText_halfway :
    (Binary64.ofBits 0x430c6bf526340002).IsModerate ∧
    plainText (number (.ofBits 0x430c6bf526340002)) = "1000000000000000.3" ∧
    compactText (number (.ofBits 0x430c6bf526340002)) = "1000000000000000.2" ∧
    parse? "1000000000000000.3" = some (number (.ofBits 0x430c6bf526340003)) ∧
    parse? "1000000000000000.2" = some (number (.ofBits 0x430c6bf526340002)) ∧
    (¬∀ value : Value, value.DistinctNames → value.nesting ≤ 127 →
      ∃ plain compact, parse? value.plainText = some plain ∧ parse? value.compactText = some compact ∧
        (plain == compact) = true) ∧
    ¬∀ value : Value,
      (∀ text, value.HasText text → '\x08' ∉ text.toList ∧ '\x0c' ∉ text.toList) →
      (∀ x, value.HasNumber x → x.IsModerate) → value.plainText = value.compactText := by
  have hmoderate : (Binary64.ofBits 0x430c6bf526340002).IsModerate := by
    refine Or.inr (Or.inr ⟨?_, ?_, ?_⟩) <;> decide +kernel
  have hplain : plainText (number (.ofBits 0x430c6bf526340002)) = "1000000000000000.3" := by
    decide +kernel
  have hcompact : compactText (number (.ofBits 0x430c6bf526340002)) = "1000000000000000.2" := by
    decide +kernel
  have hplainRead : parse? "1000000000000000.3" = some (number (.ofBits 0x430c6bf526340003)) :=
    eq_some_number_iff.mpr (by decide +kernel)
  have hcompactRead : parse? "1000000000000000.2" = some (number (.ofBits 0x430c6bf526340002)) :=
    eq_some_number_iff.mpr (by decide +kernel)
  refine ⟨hmoderate, hplain, hcompact, hplainRead, hcompactRead, fun h => ?_, fun h => ?_⟩
  · obtain ⟨plain, compact, hp, hc, hsame⟩ := h _ (.number (.ofBits 0x430c6bf526340002)) (Nat.zero_le _)
    rw [hplain, hplainRead] at hp
    rw [hcompact, hcompactRead] at hc
    obtain rfl := Option.some.inj hp
    obtain rfl := Option.some.inj hc
    exact absurd hsame (by decide)
  · have hsame := h (number (.ofBits 0x430c6bf526340002)) nofun
      fun x hx => hasNumber_number_iff.mp hx ▸ hmoderate
    rw [hplain, hcompact] at hsame
    exact absurd hsame (by decide)

end Value

end JsonFilter
