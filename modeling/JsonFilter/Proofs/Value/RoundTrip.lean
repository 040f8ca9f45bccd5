import JsonFilter.Proofs.Value.Styles

/-!
# Reading values back

The compact style is readable.  So a value whose numbers read back is read from its compact text in its
normal form, and reading what has been written once more changes nothing.

* `Value.readable_compact`: the compact style is readable;
* `Value.readsBack_compact`: numbers with few digits read back;
* `Value.parse?_compactText`: the compact text of a well-formed value reads back;
* `Value.parse?_compactText_eq_normalize`: which texts of values are read back, and as what.
-/

namespace JsonFilter

namespace Value

/-! ## The compact style -/

/-- The compact style is readable. -/
theorem readable_compact : Style.compact.Readable where
  letters := Text.readable_allLetters
  parts {x} hx := by
    show ∃ parts, Json.readParts (compactNumber x) = some (parts, [])
    unfold compactNumber
    rw [if_pos hx]
    cases x.toInt64? with
    | some n => exact ⟨_, Json.readParts_ofInt n⟩
    | none =>
      obtain ⟨parts, -, hread, -⟩ := Json.exists_readParts_compact hx
      exact ⟨parts, hread⟩
  whole {x n} hx hn := by
    obtain ⟨hlow, hhigh⟩ := isNumber_of_toInt64? hn
    show ReadsAs (compactNumber x) x.unsignZero
    unfold compactNumber
    rw [if_pos hx, hn, ← Binary64.ofInt_of_toInt64? hn]
    apply readsAs_ofInt
    simp only [Nat.pow_eq] at hlow hhigh ⊢
    omega
  notFinite hx := if_neg hx

/-- Numbers with few digits read back from their compact texts. -/
theorem readsBack_compact {x : Binary64} (hx : x.IsFinite) (hwhole : x.toInt? = none)
    (hdigits : (x.shortestDecimal .toEven).pointed.value.digits < 2 ^ 53)
    (hplaces : (x.shortestDecimal .toEven).pointed.value.exponent.natAbs ≤ 22) :
    Style.compact.ReadsBack x := by
  have hstyle : Style.compact.number x = FloatLayout.compact.text x := by
    show compactNumber x = _
    rw [compactNumber, if_pos hx, Binary64.toInt64?, hwhole]
    rfl
  exact Style.readsBack_of_text hx hwhole hstyle hdigits hplaces

-- The seventeen digits of 2⁷⁰ are rounded before they are scaled.
example : ¬Style.compact.ReadsBack (.ofInt (Nat.pow 2 70)) := by decide +kernel

/-! ## Texts -/

/-- A value is read back from its text in its normal form. -/
theorem parse?_compactText_of_distinctNames {value : Value} (h : value.DistinctNames)
    (hnumbers : value.NumbersReadBack .compact) (hnesting : value.nesting ≤ Json.maxNesting) :
    parse? value.compactText = some value.normalize :=
  parse?_writer readable_compact h hnumbers hnesting

/-- The compact text of a well-formed value reads back, but for the signs of zeros. -/
theorem parse?_compactText {value : Value} (h : value.WellFormed)
    (hnumbers : value.NumbersReadBack .compact) (hnesting : value.nesting ≤ Json.maxNesting) :
    parse? value.compactText = some value.unsignZeros := by
  rw [parse?_compactText_of_distinctNames h.distinctNames hnumbers hnesting,
    normalize_eq_unsignZeros fun _ => h.isFinite]

/-- The line that a text is rendered to does not change any more, if its numbers read back. -/
theorem compactText_of_parse?_compactText {text : String} {value : Value} (h : parse? text = some value)
    (hnumbers : value.NumbersReadBack .compact) :
    ∃ again, parse? value.compactText = some again ∧ again.compactText = value.compactText :=
  ⟨value.unsignZeros, parse?_compactText (wellFormed_of_parse? h) hnumbers (nesting_le_of_parse? h),
    compactText_unsignZeros value⟩

/-- Suppose that the numbers of a value read back from their compact texts, as far as they are finite and not
whole numbers from -2⁶³ to 2⁶³.  If its names are distinct, the compact text of the value is read back as the
normal form of the value, with null for every number that is not finite and without the signs of zeros, and it
is refused if the value nests more than 127 deep.  With finite numbers only, the value that is read equals the
one that was written; this takes in the least and the greatest number that are written as integers, of which
the latter is brought down by one.  So rendering what has been read once more gives the same text. -/
theorem parse?_compactText_eq_normalize (value : Value) (hnames : value.DistinctNames)
    (hnumbers : value.NumbersReadBack .compact) :
    (value.nesting ≤ 127 → parse? value.compactText = some value.normalize) ∧
    (127 < value.nesting → parse? value.compactText = none) ∧
    ((∀ x, value.HasNumber x → x.IsFinite) → (value.normalize == value) = true) ∧
    compactText (number (.ofInt (Nat.pow 2 63))) = "9223372036854775807" ∧
    compactText (number (.ofInt (-Nat.pow 2 63))) = "-9223372036854775808" ∧
    value.normalize.compactText = value.compactText ∧
    ∀ text document, parse? text = some document → document.NumbersReadBack .compact →
      ∃ again, parse? document.compactText = some again ∧ again.compactText = document.compactText := by
  refine ⟨parse?_compactText_of_distinctNames hnames hnumbers,
    parse?_writer_eq_none readable_compact hnames hnumbers, ?_, ?_, ?_, compactText_normalize value,
    fun _ _ => compactText_of_parse?_compactText⟩
  · intro hfinite
    exact beq_normalize (hnames.wellFormed hfinite)
  · decide +kernel
  · decide +kernel

/-- A zero, an infinity and a number that is not whole inside an object, and an array that nests too deep. -/
theorem parse?_compactText_eq_normalize_zero :
    parse? (compactText (object [("a\n\"",
        array [number (.zero true), number (.infinity false), number (.ofBits 0x3fe8000000000000)])])) =
      some (object [("a\n\"",
        array [number (.zero false), null, number (.ofBits 0x3fe8000000000000)])]) ∧
    parse? (compactText ((fun item => array [item])^[128] null)) = none := by
  have hnames : DistinctNames (object [("a\n\"",
      array [number (.zero true), number (.infinity false), number (.ofBits 0x3fe8000000000000)])]) := by
    refine .object (by decide) (List.forall_mem_singleton.mpr (.array ?_))
    exact List.forall_mem_cons.mpr ⟨.number _, List.forall_mem_cons.mpr
      ⟨.number _, List.forall_mem_singleton.mpr (.number _)⟩⟩
  have hnumbers : NumbersReadBack (object [("a\n\"",
      array [number (.zero true), number (.infinity false), number (.ofBits 0x3fe8000000000000)])])
      .compact := by
    unfold NumbersReadBack
    simp only [hasNumber_object_iff, hasNumber_array_iff, exists_eq_left, List.mem_cons,
      List.not_mem_nil, or_false, exists_eq_or_imp, hasNumber_number_iff]
    rintro x (rfl | rfl | rfl) hx hwhole
    · exact absurd (Binary64.isZero_zero true) (Binary64.not_isZero_of_toInt64? hwhole)
    · exact absurd hx (by decide)
    · decide +kernel
  have hdeep : ∀ n, DistinctNames ((fun item => array [item])^[n] null) ∧
      NumbersReadBack ((fun item => array [item])^[n] null) .compact := by
    intro n
    induction n with
    | zero => exact ⟨.null, fun x hx => by cases hx⟩
    | succ n ih =>
      rw [Function.iterate_succ_apply']
      exact ⟨.array (List.forall_mem_singleton.mpr ih.1),
        forall_hasNumber_array_iff.mpr (List.forall_mem_singleton.mpr ih.2)⟩
  constructor
  · exact (parse?_compactText_eq_normalize _ hnames hnumbers).1 (by decide)
  · exact (parse?_compactText_eq_normalize _ (hdeep 128).1 (hdeep 128).2).2.1 (by decide +kernel)

end Value

end JsonFilter
