import JsonFilter.Json.Printer
import JsonFilter.Proofs.Json.Numbers

/-!
# Reading documents back

What a writer puts together from parts that read back reads back.  A reader that takes every number for the
one that its parts name reads the compact text of a document as this document, so the text tells documents
apart.

* `Text.Grows`: writers that put something in front of what follows;
* `Json.ReadsBack`: what a writer puts in front is read back;
* `Json.readList_separated`: lists of what reads back;
* `Json.readsBack_bracketed`, `Json.readsBack_braced`: arrays and objects of what reads back;
* `Json.readsBack_writer`: the induction over documents;
* `Json.read?_of_readsBack`: a text that reads back is read on its own;
* `Json.eq_of_text_eq`: documents with the same text are the same.
-/

namespace JsonFilter

/-! ## Lengths -/

namespace Text

/-- A writer puts something in front of what follows. -/
def Grows (writer : Writer) : Prop :=
  ∀ rest : List Char, rest.length < (writer rest).length

theorem grows_put {text : List Char} (h : text ≠ []) : Grows (put text) := by
  intro rest
  have hpos := List.length_pos_of_ne_nil h
  rw [put, List.length_append]
  omega

theorem separated_cons_cons (writer next : Writer) (others : List Writer) (rest : List Char) :
    separated (writer :: next :: others) rest = writer (',' :: separated (next :: others) rest) :=
  rfl

theorem length_le_separated {writers : List Writer} (h : ∀ writer ∈ writers, Grows writer)
    (rest : List Char) : rest.length ≤ (separated writers rest).length := by
  induction writers with
  | nil => exact Nat.le_refl _
  | cons writer others ih =>
    obtain ⟨hwriter, hothers⟩ := List.forall_mem_cons.mp h
    cases others with
    | nil => exact Nat.le_of_lt (hwriter rest)
    | cons next others =>
      rw [separated_cons_cons]
      have hgrow := hwriter (',' :: separated (next :: others) rest)
      have hle := ih hothers
      rw [List.length_cons] at hgrow
      omega

theorem grows_bracketed {writers : List Writer} (h : ∀ writer ∈ writers, Grows writer) :
    Grows (bracketed writers) := by
  intro rest
  have hle := length_le_separated h (']' :: rest)
  rw [List.length_cons] at hle
  rw [bracketed, List.length_cons]
  omega

theorem grows_braced {writers : List Writer} (h : ∀ writer ∈ writers, Grows writer) :
    Grows (braced writers) := by
  intro rest
  have hle := length_le_separated h ('\x7d' :: rest)
  rw [List.length_cons] at hle
  rw [braced, List.length_cons]
  omega

theorem grows_named (name : List Char) {writer : Writer} (h : Grows writer) :
    Grows (named name writer) := by
  intro rest
  have hgrow := h rest
  rw [named, List.length_append, List.length_cons]
  omega

end Text

namespace Json

variable {α ι : Type}

/-! ## Writers -/

theorem itemWriters_eq_map (items : List Json) : itemWriters items = items.map writer := by
  induction items with
  | nil => rfl
  | cons item rest ih => rw [itemWriters, ih, List.map_cons]

/-- The writer of a member. -/
def memberWriter (member : String × Json) : Text.Writer :=
  Text.named (Text.quote Text.allLetters member.1.toList) member.2.writer

theorem memberWriters_eq_map (members : List (String × Json)) :
    memberWriters members = members.map memberWriter := by
  induction members with
  | nil => rfl
  | cons member rest ih =>
    obtain ⟨key, item⟩ := member
    rw [memberWriters, ih]
    rfl

/-- What is read as a number is not empty. -/
theorem ne_nil_of_readParts {text rest : List Char} {parts : NumberParts}
    (h : readParts text = some (parts, rest)) : text ≠ [] := by
  rintro rfl
  cases h

/-- The compact text of a finite double is that of its layout. -/
theorem floatText_of_isFinite {x : Binary64} (hx : x.IsFinite) : floatText x = FloatLayout.compact.text x :=
  if_pos hx

/-- The text of a document is not empty. -/
theorem grows_writer {document : Json} (hwell : document.WellFormed) :
    Text.Grows document.writer := by
  induction document using Json.induction with
  | null => exact Text.grows_put (List.cons_ne_nil _ _)
  | bool b => cases b <;> exact Text.grows_put (List.cons_ne_nil _ _)
  | integer n =>
    cases hwell with
    | integer hn => exact Text.grows_put (ne_nil_of_readParts (readParts_ofInt n))
  | float x =>
    cases hwell with
    | float hx =>
      obtain ⟨parts, -, hread, -⟩ := exists_readParts_compact hx
      rw [← floatText_of_isFinite hx] at hread
      exact Text.grows_put (ne_nil_of_readParts hread)
  | string text => exact Text.grows_put (List.cons_ne_nil _ _)
  | array items ih =>
    cases hwell with
    | array hitems =>
      rw [writer, itemWriters_eq_map]
      exact Text.grows_bracketed (List.forall_mem_map.mpr fun item hitem => ih item hitem (hitems item hitem))
  | object members ih =>
    cases hwell with
    | object hmembers =>
      rw [writer, memberWriters_eq_map]
      exact Text.grows_braced (List.forall_mem_map.mpr fun member hm =>
        Text.grows_named _ (ih member hm (hmembers member hm)))

/-! ## Lists -/

/-- A text begins with a character that is neither blank nor a closing bracket. -/
def Begins (text : List Char) : Prop :=
  ∃ c tail, text = c :: tail ∧ isBlank c = false ∧ c ≠ ']' ∧ c ≠ '\x7d'

theorem Begins.skipBlanks_eq {text : List Char} (h : Begins text) : skipBlanks text = text := by
  obtain ⟨c, tail, rfl, hblank, -⟩ := h
  exact List.dropWhile_cons_of_neg (by simp [hblank])

/-- What a writer puts in front of a delimiter is read back, as far as the whole text is short enough. -/
def ReadsBack (bound : Nat) (read : Reader α) (writer : Text.Writer) (a : α) : Prop :=
  ∀ rest, Delimited rest → (writer rest).length ≤ bound →
    read (writer rest) = some (a, rest) ∧ Begins (writer rest)

theorem delimited_comma (rest : List Char) : Delimited (',' :: rest) :=
  delimited_cons (by decide)

/-- What reads back is read back in front of a bracket, with commas in between. -/
theorem itemsRead_separated {bound : Nat} {read : Reader α} {close : Char} {rest : List Char}
    (hclose : Delimited (close :: rest)) (hblank : isBlank close = false) {write : ι → Text.Writer}
    {value : ι → α} {items : List ι} (hne : items ≠ [])
    (hgrows : ∀ item ∈ items, Text.Grows (write item))
    (hread : ∀ item ∈ items, ReadsBack bound read (write item) (value item))
    (hbound : (Text.separated (items.map write) (close :: rest)).length ≤ bound) :
    ItemsRead read close (Text.separated (items.map write) (close :: rest)) (items.map value) rest ∧
      Begins (Text.separated (items.map write) (close :: rest)) ∧
      items.length ≤ (Text.separated (items.map write) (close :: rest)).length := by
  induction items with
  | nil => exact absurd rfl hne
  | cons item others ih =>
    obtain ⟨hitem, hothers⟩ := List.forall_mem_cons.mp hread
    obtain ⟨hgrow, hgrows⟩ := List.forall_mem_cons.mp hgrows
    have hskip : skipBlanks (close :: rest) = close :: rest :=
      List.dropWhile_cons_of_neg (by simp [hblank])
    cases others with
    | nil =>
      obtain ⟨hfirst, hbegins⟩ := hitem _ hclose hbound
      rw [← hbegins.skipBlanks_eq] at hfirst
      have hlength := hgrow (close :: rest)
      exact ⟨.last hfirst hskip, hbegins, Nat.succ_le_of_lt (Nat.zero_lt_of_lt hlength)⟩
    | cons next others =>
      rw [List.map_cons, List.map_cons, Text.separated_cons_cons] at hbound ⊢
      -- The comma ends the first item, and what stands behind it is shorter than the bound again.
      obtain ⟨hfirst, hbegins⟩ := hitem _ (delimited_comma _) hbound
      rw [← hbegins.skipBlanks_eq] at hfirst
      have hlength := hgrow (',' :: Text.separated ((next :: others).map write) (close :: rest))
      rw [List.length_cons] at hlength
      obtain ⟨hfollow, -, hcount⟩ := ih (List.cons_ne_nil _ _) hgrows hothers (by
        rw [List.map_cons] at hlength ⊢
        omega)
      refine ⟨.more hfirst rfl hfollow, hbegins, ?_⟩
      rw [List.length_cons]
      rw [List.map_cons] at hlength hcount
      omega

/-- A list whose items read back reads back. -/
theorem readList_separated {bound : Nat} {read : Reader α} {close : Char} {rest : List Char}
    (hclose : close = ']' ∨ close = '\x7d') {write : ι → Text.Writer} {value : ι → α}
    {items : List ι} (hgrows : ∀ item ∈ items, Text.Grows (write item))
    (hread : ∀ item ∈ items, ReadsBack bound read (write item) (value item))
    (hbound : (Text.separated (items.map write) (close :: rest)).length ≤ bound) :
    readList bound read close (Text.separated (items.map write) (close :: rest)) =
      some (items.map value, rest) := by
  have hcomma : close ≠ ',' := by rcases hclose with rfl | rfl <;> decide
  have hblank : isBlank close = false := by rcases hclose with rfl | rfl <;> rfl
  have hdelimited : Delimited (close :: rest) :=
    delimited_cons (by rcases hclose with rfl | rfl <;> decide)
  rw [readList_eq_some_iff hcomma]
  by_cases hne : items = []
  · subst hne
    exact Or.inl ⟨List.dropWhile_cons_of_neg (by simp [hblank]), rfl⟩
  · obtain ⟨hitems, hbegins, hcount⟩ :=
      itemsRead_separated hdelimited hblank hne hgrows hread hbound
    rw [hbegins.skipBlanks_eq]
    obtain ⟨c, tail, htext, -, hbracket, hbrace⟩ := hbegins
    have hother : c ≠ close := by
      rcases hclose with rfl | rfl
      · exact hbracket
      · exact hbrace
    have hlength : (items.map value).length ≤ bound := by
      rw [List.length_map]
      exact Nat.le_trans hcount hbound
    exact Or.inr ⟨⟨c, tail, htext, hother⟩, hitems, hlength⟩

/-! ## Documents -/

variable {number? : NumberParts → Option Json}

theorem readNode_eq_none {bound : Nat} {inner : Option (Reader Json)} {c : Char} {tail : List Char}
    (hc : isBlank c = true ∨ c = ']' ∨ c = '\x7d') : readNode number? bound inner (c :: tail) = none := by
  have hcases : c = ' ' ∨ c = '\t' ∨ c = '\n' ∨ c = '\r' ∨ c = ']' ∨ c = '\x7d' := by
    simpa [isBlank, or_assoc] using hc
  rcases hcases with rfl | rfl | rfl | rfl | rfl | rfl
  all_goals rfl

/-- A document that can be read begins with a character that is neither blank nor a closing bracket. -/
theorem begins_of_readNested {bound depth : Nat} {text rest : List Char} {document : Json}
    (h : readNested number? bound depth text = some (document, rest)) : Begins text := by
  cases text with
  | nil =>
    rw [readNested_nil] at h
    cases h
  | cons c tail =>
    have hc : ¬(isBlank c = true ∨ c = ']' ∨ c = '\x7d') := by
      intro hc
      cases depth with
      | zero =>
        rw [readNested, readNode_eq_none hc] at h
        cases h
      | succ depth =>
        rw [readNested, readNode_eq_none hc] at h
        cases h
    rw [not_or, not_or, Bool.not_eq_true] at hc
    exact ⟨c, tail, rfl, hc⟩

/-- What begins with the parts of a number is read as a number. -/
theorem readNested_eq_readNumber {text rest : List Char} {parts : NumberParts}
    (h : readParts text = some (parts, rest)) (bound depth : Nat) :
    readNested number? bound depth text = readNumber number? text := by
  have hnode : ∀ inner, readNode number? bound inner text = readNumber number? text := by
    intro inner
    unfold readNode
    split
    · cases h
    · cases h
    · cases h
    · cases h
    · cases h
    · cases h
    · rfl
  cases depth <;> exact hnode _

/-- What is read as a number is a document. -/
theorem readNested_of_readNumber {text rest : List Char} {document : Json}
    (h : readNumber number? text = some (document, rest)) (bound depth : Nat) :
    readNested number? bound depth text = some (document, rest) := by
  obtain ⟨⟨parts, after⟩, hparts, -⟩ := Option.bind_eq_some_iff.mp h
  rw [readNested_eq_readNumber hparts, h]

theorem readString_quote {letters : Text.EscapeLetters} (h : letters.Readable) (text : String)
    (rest : List Char) : readString (Text.quote letters text.toList ++ rest) = some (text, rest) := by
  have hquoted : readString ('"' :: (text.toList.flatMap (Text.escapeChar letters) ++ '"' :: rest)) =
      some (String.ofList text.toList, rest) := by
    rw [readString, Text.readQuoted_quote h]
    rfl
  have hquote : Text.quote letters text.toList ++ rest =
      '"' :: (text.toList.flatMap (Text.escapeChar letters) ++ '"' :: rest) := by
    rw [Text.quote, List.cons_append, List.append_assoc, List.singleton_append]
  rw [hquote, hquoted, String.ofList_toList]

theorem readNested_quote {letters : Text.EscapeLetters} (h : letters.Readable) (bound depth : Nat)
    (text : String) (rest : List Char) :
    readNested number? bound depth (Text.quote letters text.toList ++ rest) = some (string text, rest) := by
  have hnode : ∀ inner, readNode number? bound inner (Text.quote letters text.toList ++ rest) =
      some (string text, rest) := by
    intro inner
    show (readString (Text.quote letters text.toList ++ rest)).map _ = _
    rw [readString_quote h]
    rfl
  cases depth <;> exact hnode _

/-- A member reads back if its document does. -/
theorem readsBack_named {letters : Text.EscapeLetters} (hletters : letters.Readable) {bound depth : Nat}
    (key : String) {writer : Text.Writer} {document : Json}
    (h : ReadsBack bound (readNested number? bound depth) writer document) :
    ReadsBack bound (readMember (readNested number? bound depth))
      (Text.named (Text.quote letters key.toList) writer) (key, document) := by
  intro rest hrest hbound
  rw [Text.named, List.length_append, List.length_cons] at hbound
  obtain ⟨hread, hbegins⟩ := h rest hrest (by omega)
  refine ⟨?_, '"', _, rfl, rfl, by decide, by decide⟩
  rw [readMember_eq_some_iff]
  refine ⟨_, _, readString_quote hletters key _, rfl, ?_⟩
  rwa [hbegins.skipBlanks_eq]

theorem readsBack_of_readNested {bound depth : Nat} {writer : Text.Writer} {document : Json}
    (h : ∀ rest, Delimited rest → (writer rest).length ≤ bound →
      readNested number? bound depth (writer rest) = some (document, rest)) :
    ReadsBack bound (readNested number? bound depth) writer document := by
  intro rest hrest hbound
  have hread := h rest hrest hbound
  exact ⟨hread, begins_of_readNested hread⟩

/-- An array reads back if its items do. -/
theorem readsBack_bracketed {bound depth : Nat} {write : ι → Text.Writer} {value : ι → Json} {items : List ι}
    (hgrows : ∀ item ∈ items, Text.Grows (write item))
    (hread : ∀ item ∈ items, ReadsBack bound (readNested number? bound depth) (write item) (value item)) :
    ReadsBack bound (readNested number? bound (depth + 1)) (Text.bracketed (items.map write))
      (array (items.map value)) := by
  refine readsBack_of_readNested fun rest _ hbound => ?_
  have hlist := readList_separated (Or.inl rfl) hgrows hread (Nat.le_of_succ_le hbound)
  exact Option.bind_eq_some_iff.mpr ⟨_, hlist, rfl⟩

/-- An object reads back if its members do. -/
theorem readsBack_braced {bound depth : Nat} {write : ι → Text.Writer} {value : ι → String × Json}
    {items : List ι} (hgrows : ∀ item ∈ items, Text.Grows (write item))
    (hread : ∀ item ∈ items,
      ReadsBack bound (readMember (readNested number? bound depth)) (write item) (value item)) :
    ReadsBack bound (readNested number? bound (depth + 1)) (Text.braced (items.map write))
      (object (items.map value)) := by
  refine readsBack_of_readNested fun rest _ hbound => ?_
  have hlist := readList_separated (Or.inr rfl) hgrows hread (Nat.le_of_succ_le hbound)
  exact Option.bind_eq_some_iff.mpr ⟨_, hlist, rfl⟩

/-- A text that is read as a number reads back. -/
theorem readsBack_number (bound depth : Nat) {text : List Char} {document : Json}
    (h : readNumber number? text = some (document, [])) :
    ReadsBack bound (readNested number? bound depth) (Text.put text) document :=
  readsBack_of_readNested fun _ hrest _ => readNested_of_readNumber (readNumber_append hrest h) bound depth

theorem readsBack_string {letters : Text.EscapeLetters} (h : letters.Readable) (bound depth : Nat)
    (text : String) : ReadsBack bound (readNested number? bound depth)
      (Text.put (Text.quote letters text.toList)) (string text) :=
  readsBack_of_readNested fun rest _ _ => readNested_quote h bound depth text rest

theorem readsBack_null (bound depth : Nat) :
    ReadsBack bound (readNested number? bound depth) (Text.put Text.nullWord) null := by
  refine readsBack_of_readNested fun rest _ _ => ?_
  cases depth <;> rfl

theorem readsBack_bool (bound depth : Nat) (b : Bool) :
    ReadsBack bound (readNested number? bound depth) (Text.put (Text.ofBool b)) (bool b) := by
  refine readsBack_of_readNested fun rest _ _ => ?_
  cases b <;> cases depth <;> rfl

/-- A reader that takes numbers for what their parts name reads a document back. -/
theorem readsBack_writer (bound : Nat) {document : Json} (hwell : document.WellFormed) {depth : Nat}
    (hdepth : document.nesting ≤ depth) :
    ReadsBack bound (readNested exactNumber? bound depth) document.writer document := by
  induction document using Json.induction generalizing depth with
  | null => exact readsBack_null bound depth
  | bool b => exact readsBack_bool bound depth b
  | integer n => exact readsBack_number bound depth (readNumber_ofInt n)
  | float x =>
    cases hwell with
    | float hx =>
      have hread := readNumber_text hx
      rw [← floatText_of_isFinite hx] at hread
      exact readsBack_number bound depth hread
  | string text => exact readsBack_string Text.readable_allLetters bound depth text
  | array items ih =>
    cases depth with
    | zero => cases hdepth
    | succ depth =>
      cases hwell with
      | array hitems =>
        have hnesting := nesting_array_le_iff.mp hdepth
        have hread := readsBack_bracketed (fun item hi => grows_writer (hitems item hi))
          fun item hi => ih item hi (hitems item hi) (hnesting item hi)
        rw [writer, itemWriters_eq_map]
        rwa [List.map_id'] at hread
  | object members ih =>
    cases depth with
    | zero => cases hdepth
    | succ depth =>
      cases hwell with
      | object hmembers =>
        have hnesting := nesting_object_le_iff.mp hdepth
        have hread := readsBack_braced
          (fun member hm => Text.grows_named _ (grows_writer (hmembers member hm)))
          fun member hm => readsBack_named Text.readable_allLetters member.1
            (ih member hm (hmembers member hm) (hnesting member hm))
        rw [writer, memberWriters_eq_map]
        rwa [List.map_id'] at hread

/-- A text that reads back is read on its own. -/
theorem read?_of_readsBack {writer : Text.Writer} {document : Json}
    (h : ReadsBack (writer []).length (readNested ofNumberParts? (writer []).length maxNesting) writer
      document) :
    read? (String.ofList (writer [])) = some document := by
  obtain ⟨hread, hbegins⟩ := h [] delimited_nil (Nat.le_refl _)
  unfold read?
  simp only [String.toList_ofList, hbegins.skipBlanks_eq]
  exact Option.bind_eq_some_iff.mpr ⟨_, hread, if_pos rfl⟩

/-- A text that reads back as a document that nests deeper than texts may is refused. -/
theorem read?_eq_none_of_readsBack {writer : Text.Writer} {document : Json} {depth : Nat}
    (h : ReadsBack (writer []).length (readNested ofNumberParts? (writer []).length depth) writer document)
    (hnesting : maxNesting < document.nesting) (hdepth : maxNesting ≤ depth) :
    read? (String.ofList (writer [])) = none := by
  obtain ⟨hdeep, hbegins⟩ := h [] delimited_nil (Nat.le_refl _)
  refine Option.eq_none_iff_forall_ne_some.mpr fun found hfound => ?_
  unfold read? at hfound
  simp only [String.toList_ofList, hbegins.skipBlanks_eq] at hfound
  obtain ⟨⟨read, rest⟩, hread, -⟩ := Option.bind_eq_some_iff.mp hfound
  -- A reader that allows more brackets reads the same, and this one reads the whole document.
  have hle := (wellFormed_of_readNested hread).2
  have hagain := readNested_append delimited_nil (Nat.le_refl _) hread (Nat.le_trans hle hdepth)
  rw [List.append_nil, hdeep] at hagain
  obtain ⟨rfl, -⟩ := Prod.mk.inj (Option.some.inj hagain)
  exact absurd hle (Nat.not_le_of_gt hnesting)

/-- A text that is the parts of a number is read as what these are taken for. -/
theorem read?_of_readParts {text : List Char} {parts : NumberParts}
    (h : readParts text = some (parts, [])) : read? (String.ofList text) = ofNumberParts? parts := by
  have hbegins : Begins text := by
    have hread : readNumber (fun _ => some null) text = some (null, []) := readNumber_eq h
    exact begins_of_readNested (readNested_of_readNumber hread 0 0)
  unfold read?
  simp only [String.toList_ofList, hbegins.skipBlanks_eq, readNested_eq_readNumber h, readNumber_eq h]
  cases ofNumberParts? parts <;> rfl

/-- Documents with the same text are the same, however deep they nest. -/
theorem eq_of_text_eq {document other : Json} (hwell : document.WellFormed) (hother : other.WellFormed)
    (h : document.text = other.text) : document = other := by
  have htext : document.writer [] = other.writer [] := String.ofList_injective h
  -- A reader that allows the brackets of both reads each of them from the one text.
  obtain ⟨hread, -⟩ := readsBack_writer (document.writer []).length hwell
    (Nat.le_max_left document.nesting other.nesting) [] delimited_nil (Nat.le_refl _)
  obtain ⟨hread', -⟩ := readsBack_writer (other.writer []).length hother
    (Nat.le_max_right document.nesting other.nesting) [] delimited_nil (Nat.le_refl _)
  rw [htext, hread'] at hread
  exact (Prod.mk.inj (Option.some.inj hread)).1.symm

end Json

end JsonFilter
