import JsonFilter.Proofs.Value.ToJson

/-!
# Reading texts of any style

A style is readable if its escapes read back and its numbers are written as numbers.  Where the numbers of a
value read back, the text of the value in a readable style does so as well: it is read as the normal form of
the value, and refused if the value nests too deep.

* `Value.Style.ReadsBack`, `Value.NumbersReadBack`: numbers that are read as what they were written for;
* `Value.Style.Readable`: what makes a style readable;
* `Value.readsAs_ofInt`: the text of an integer is read as the nearest double;
* `Value.Style.readsBack_of_text`: numbers with few digits read back;
* `Value.exists_readsBack`: the induction over values;
* `Value.parse?_writer`, `Value.parse?_writer_eq_none`: the text of a value in a readable style.
-/

namespace JsonFilter

namespace Value

/-! ## Numbers that read back -/

/-- The text of a number in a style is read as the number. -/
def Style.ReadsBack (style : Style) (x : Binary64) : Prop :=
  parse? (String.ofList ((Value.number x).writer style [])) = some (Value.number x)

/-- The texts of the numbers of a value are read as the numbers.  Nothing is asked of numbers that are not
finite, which are written as null, and of whole numbers from -2⁶³ to 2⁶³. -/
def NumbersReadBack (value : Value) (style : Style) : Prop :=
  ∀ x, value.HasNumber x → x.IsFinite → x.toInt64? = none → style.ReadsBack x

theorem eq_some_number_iff {result : Option Value} {x : Binary64} :
    result = some (number x) ↔ result.bind number? = some x := by
  cases result with
  | none => exact iff_of_false nofun nofun
  | some value => cases value <;> simp [number?]

instance (style : Style) (x : Binary64) : Decidable (style.ReadsBack x) :=
  decidable_of_iff _ eq_some_number_iff.symm

/-- A text is read as a number that stands for a given double. -/
def ReadsAs (text : List Char) (x : Binary64) : Prop :=
  ∃ document, Json.readNumber Json.ofNumberParts? text = some (document, []) ∧ ofJson document = number x

/-- A text that is the parts of a number is read as what these stand for. -/
theorem readsAs_of_parse? {text : List Char} {parts : Json.NumberParts} {x : Binary64}
    (hparts : Json.readParts text = some (parts, []))
    (h : parse? (String.ofList text) = some (number x)) : ReadsAs text x := by
  rw [parse?, Json.read?_of_readParts hparts] at h
  obtain ⟨document, hdocument, hx⟩ := Option.map_eq_some_iff.mp h
  refine ⟨document, ?_, hx⟩
  rw [Json.readNumber_eq hparts, hdocument, Option.map_some]

/-! ## Whole numbers -/

/-- Digits that fit into a word stand for the nearest double, whether they are read as an integer or, behind a
minus sign, beyond the integers. -/
theorem exists_ofNumberParts?_whole (negative : Bool) {whole : List Char}
    (h : Text.toNat whole < Nat.pow 2 64) :
    ∃ document, Json.ofNumberParts? ⟨negative, whole, none, none⟩ = some document ∧
      ofJson document = number (.ofNat negative (Text.toNat whole)) := by
  unfold Json.ofNumberParts?
  simp only [Json.takeDigits_of_toNat_lt h]
  rw [if_pos ⟨rfl, rfl, rfl⟩]
  generalize Text.toNat whole = n
  have hinteger : ∀ i : Int, i.natAbs = n → decide (i < 0) = negative →
      ofJson (.integer i) = number (.ofNat negative n) := by
    rintro i rfl rfl
    rfl
  cases negative with
  | true =>
    rw [if_pos rfl]
    split
    · exact ⟨_, rfl, hinteger _ (Int.natAbs_neg _) (decide_eq_true (by omega))⟩
    · exact ⟨_, rfl, rfl⟩
  | false =>
    rw [if_neg Bool.false_ne_true]
    exact ⟨_, rfl, hinteger _ (Int.natAbs_natCast _) (decide_eq_false (by omega))⟩

/-- The text of an integer of 64 bits is read as the double nearest to it. -/
theorem readsAs_ofInt {n : Int} (h : n.natAbs < Nat.pow 2 64) : ReadsAs (Text.ofInt n) (.ofInt n) := by
  have hfits : Text.toNat (Text.ofNat n.natAbs) < Nat.pow 2 64 := by rwa [Text.toNat_ofNat]
  obtain ⟨document, hnumber, hdocument⟩ := exists_ofNumberParts?_whole (decide (n < 0)) hfits
  refine ⟨document, ?_, ?_⟩
  · rw [Json.readNumber_eq (Json.readParts_ofInt n), hnumber, Option.map_some]
  · rw [hdocument, Text.toNat_ofNat, Binary64.ofInt_eq_ofNat]

/-! ## Numbers with few digits -/

/-- A number that is not whole reads back from either layout if its shortest decimal has digits of 53 bits and
at most 22 places. -/
theorem Style.readsBack_of_text {style : Style} {layout : FloatLayout} {x : Binary64} (hx : x.IsFinite)
    (hwhole : x.toInt? = none) (hstyle : style.number x = layout.text x)
    (hdigits : (x.shortestDecimal layout.tie).pointed.value.digits < 2 ^ 53)
    (hplaces : (x.shortestDecimal layout.tie).pointed.value.exponent.natAbs ≤ 22) : style.ReadsBack x := by
  obtain ⟨parts, hread, hspells⟩ :=
    Json.exists_readParts_text layout fun _ => Binary64.point_lt_length hx hwhole layout.tie
  rw [← hstyle] at hread
  rw [Style.ReadsBack, writer, Text.put, List.append_nil, parse?, Json.read?_of_readParts hread,
    hspells.ofNumberParts?_eq hdigits hplaces, Binary64.toBinary64_pointed_shortestDecimal hx]
  rfl

/-! ## Readable styles -/

/-- A style in which escaped characters read back, finite numbers are written as numbers, of which the whole
ones from -2⁶³ to 2⁶³ read back, a zero without its sign, and other numbers are written as null. -/
structure Style.Readable (style : Style) : Prop where
  letters : style.letters.Readable
  parts : ∀ {x : Binary64}, x.IsFinite → ∃ parts, Json.readParts (style.number x) = some (parts, [])
  whole : ∀ {x : Binary64} {n : Int}, x.IsFinite → x.toInt64? = some n →
    ReadsAs (style.number x) x.unsignZero
  notFinite : ∀ {x : Binary64}, ¬x.IsFinite → style.number x = Text.nullWord

variable {style : Style}

/-- A number that reads back if it is not whole is read without the sign of a zero. -/
theorem Style.Readable.readsAs (hstyle : style.Readable) {x : Binary64} (hx : x.IsFinite)
    (h : x.toInt64? = none → style.ReadsBack x) : ReadsAs (style.number x) x.unsignZero := by
  cases hwhole : x.toInt64? with
  | some n => exact hstyle.whole hx hwhole
  | none =>
    obtain ⟨parts, hparts⟩ := hstyle.parts hx
    have hread := h hwhole
    rw [Style.ReadsBack, writer, Text.put, List.append_nil] at hread
    rw [Binary64.unsignZero_of_not_isZero (Binary64.not_isZero_of_toInt64? hwhole)]
    exact readsAs_of_parse? hparts hread

/-- The text of a value in a readable style is not empty. -/
theorem grows_writer (hstyle : style.Readable) (value : Value) : Text.Grows (value.writer style) := by
  induction value using Value.induction with
  | null => exact Text.grows_put (List.cons_ne_nil _ _)
  | bool b => cases b <;> exact Text.grows_put (List.cons_ne_nil _ _)
  | number x =>
    refine Text.grows_put ?_
    by_cases hx : x.IsFinite
    · obtain ⟨parts, hparts⟩ := hstyle.parts hx
      exact Json.ne_nil_of_readParts hparts
    · rw [hstyle.notFinite hx]
      exact List.cons_ne_nil _ _
  | string text => exact Text.grows_put (List.cons_ne_nil _ _)
  | array items ih =>
    rw [writer, itemWriters_eq_map]
    exact Text.grows_bracketed (List.forall_mem_map.mpr ih)
  | object fields ih =>
    rw [writer, fieldWriters_eq_map]
    exact Text.grows_braced (List.forall_mem_map.mpr fun field hfield =>
      Text.grows_named _ (ih field hfield))

/-- The text of a value in a readable style is read as a document that stands for the normal form of the
value. -/
theorem exists_readsBack (hstyle : style.Readable) (bound : Nat) {value : Value}
    (hnames : value.DistinctNames) (hnumbers : value.NumbersReadBack style) {depth : Nat}
    (hdepth : value.nesting ≤ depth) :
    ∃ document, ofJson document = value.normalize ∧
      Json.ReadsBack bound (Json.readNested Json.ofNumberParts? bound depth) (value.writer style) document := by
  have hempty : Nonempty Json := ⟨.null⟩
  induction hnames generalizing depth with
  | null => exact ⟨.null, rfl, Json.readsBack_null bound depth⟩
  | bool b => exact ⟨.bool b, rfl, Json.readsBack_bool bound depth b⟩
  | number x =>
    by_cases hx : x.IsFinite
    · obtain ⟨document, hread, hdocument⟩ := hstyle.readsAs hx (hnumbers x .number hx)
      exact ⟨document, hdocument.trans (if_pos hx).symm, Json.readsBack_number bound depth hread⟩
    · refine ⟨.null, (if_neg hx).symm, ?_⟩
      rw [writer, hstyle.notFinite hx]
      exact Json.readsBack_null bound depth
  | string text => exact ⟨.string text, rfl, Json.readsBack_string hstyle.letters bound depth text⟩
  | @array items _ ih =>
    cases depth with
    | zero => cases hdepth
    | succ depth =>
      have hnesting := nestingItems_le_iff.mp (Nat.le_of_succ_le_succ hdepth)
      have hinside := forall_hasNumber_array_iff.mp hnumbers
      choose! document hdocument hread using fun item hitem =>
        ih item hitem (hinside item hitem) (hnesting item hitem)
      refine ⟨.array (items.map document), ?_, ?_⟩
      · rw [ofJson, ofJsonItems_eq_map, List.map_map, normalize_array]
        exact congrArg array (List.map_congr_left hdocument)
      · rw [writer, itemWriters_eq_map]
        exact Json.readsBack_bracketed (fun item _ => grows_writer hstyle item) hread
  | @object fields hkeys _ ih =>
    cases depth with
    | zero => cases hdepth
    | succ depth =>
      have hnesting := nestingFields_le_iff.mp (Nat.le_of_succ_le_succ hdepth)
      have hinside := forall_hasNumber_object_iff.mp hnumbers
      choose! document hdocument hread using fun field hfield =>
        ih field hfield (hinside field hfield) (hnesting field hfield)
      refine ⟨.object (fields.map fun field => (field.1, document field)), ?_, ?_⟩
      · have hfields : Fields.mapValues ofJson (fields.map fun field => (field.1, document field)) =
            Fields.mapValues normalize fields := by
          rw [Fields.mapValues, Fields.mapValues, List.map_map]
          exact List.map_congr_left fun field hfield => Prod.ext rfl (hdocument field hfield)
        rw [ofJson, ofJsonMembers_eq_mapValues, normalize_object, hfields,
          Fields.ofList_of_nodup (by rwa [Fields.keys_mapValues])]
      · rw [writer, fieldWriters_eq_map]
        exact Json.readsBack_braced (fun field _ => Text.grows_named _ (grows_writer hstyle field.2))
          fun field hfield => Json.readsBack_named hstyle.letters field.1 (hread field hfield)

/-! ## Texts -/

/-- A value is read back from its text in a readable style in its normal form. -/
theorem parse?_writer (hstyle : style.Readable) {value : Value} (hnames : value.DistinctNames)
    (hnumbers : value.NumbersReadBack style) (hnesting : value.nesting ≤ Json.maxNesting) :
    parse? (String.ofList (value.writer style [])) = some value.normalize := by
  obtain ⟨document, hdocument, hread⟩ :=
    exists_readsBack hstyle (value.writer style []).length hnames hnumbers hnesting
  rw [parse?, Json.read?_of_readsBack hread, Option.map_some, hdocument]

/-- A value nests as deep as its normal form: they have one document. -/
theorem nesting_normalize (value : Value) : value.normalize.nesting = value.nesting := by
  rw [← nesting_toJson, toJson_normalize, nesting_toJson]

/-- The text of a value that nests deeper than texts may is refused. -/
theorem parse?_writer_eq_none (hstyle : style.Readable) {value : Value} (hnames : value.DistinctNames)
    (hnumbers : value.NumbersReadBack style) (hnesting : Json.maxNesting < value.nesting) :
    parse? (String.ofList (value.writer style [])) = none := by
  obtain ⟨document, hdocument, hread⟩ :=
    exists_readsBack hstyle (value.writer style []).length hnames hnumbers (Nat.le_refl _)
  have hdeep : value.nesting ≤ document.nesting := by
    rw [← nesting_normalize, ← hdocument]
    exact nesting_ofJson_le document
  rw [parse?, Json.read?_eq_none_of_readsBack hread (Nat.lt_of_lt_of_le hnesting hdeep)
    (Nat.le_of_lt hnesting), Option.map_none]

end Value

end JsonFilter
