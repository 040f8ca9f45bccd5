import JsonFilter.Proofs.Json.Reading
import JsonFilter.Proofs.Text.Digits
import JsonFilter.Proofs.Text.Quoted
import Mathlib.Data.List.TakeDrop
import Mathlib.Data.List.TakeWhile
import Mathlib.Tactic.Tauto

/-!
# How far a reader looks

A reader looks at the character behind what it takes off only to see that a number has ended.  So a document
is read in the same way in front of anything that cannot go on with a number.

* `Json.readDigits_eq_some_iff`: digits are taken off as far as they go;
* `Json.Delimited`: the texts that do not go on with a number;
* `Json.readNested_append`: a document is read in the same way in front of such a text, and with other
  bounds that it keeps.
-/

namespace JsonFilter.Json

variable {α : Type}

/-! ## Digits -/

/-- A text does not begin with a digit. -/
def NoDigitAhead (text : List Char) : Prop :=
  ∀ c ∈ text.head?, c.isDigit = false

theorem noDigitAhead_cons {c : Char} {text : List Char} :
    NoDigitAhead (c :: text) ↔ c.isDigit = false := by
  simp [NoDigitAhead]

/-- The digits in front of a text go as far as the first character that is none. -/
theorem span_isDigit_eq_iff {text digits rest : List Char} :
    text.span Char.isDigit = (digits, rest) ↔
      text = digits ++ rest ∧ (∀ c ∈ digits, c.isDigit = true) ∧ NoDigitAhead rest := by
  rw [List.span_eq_takeWhile_dropWhile, Prod.mk.injEq]
  constructor
  · rintro ⟨rfl, rfl⟩
    refine ⟨List.takeWhile_append_dropWhile.symm, fun c hc => List.mem_takeWhile_imp hc, ?_⟩
    intro c hc
    have hnot := List.head?_dropWhile_not Char.isDigit text
    rwa [Option.mem_def.mp hc] at hnot
  · rintro ⟨rfl, hdigits, hrest⟩
    have hnone : rest.takeWhile Char.isDigit = [] ∧ rest.dropWhile Char.isDigit = rest := by
      cases rest with
      | nil => exact ⟨rfl, rfl⟩
      | cons c rest => simp [noDigitAhead_cons.mp hrest]
    rw [List.takeWhile_append_of_pos hdigits, List.dropWhile_append_of_pos hdigits, hnone.1, hnone.2]
    exact ⟨List.append_nil _, rfl⟩

/-- Digits are taken off as far as they go. -/
theorem readDigits_eq_some_iff {text digits rest : List Char} :
    readDigits text = some (digits, rest) ↔
      text = digits ++ rest ∧ Text.IsDigits digits ∧ NoDigitAhead rest := by
  have hspan : readDigits text = some (digits, rest) ↔
      text.span Char.isDigit = (digits, rest) ∧ digits ≠ [] := by
    unfold readDigits
    generalize text.span Char.isDigit = found
    obtain ⟨_ | ⟨c, digits'⟩, rest'⟩ := found
    · simp +contextual [eq_comm]
    · simp +contextual [eq_comm]
  rw [hspan, span_isDigit_eq_iff, Text.IsDigits]
  tauto

/-! ## Delimiters -/

/-- A text does not go on with a number. -/
def Delimited (text : List Char) : Prop :=
  ∀ c ∈ text.head?, c.isDigit = false ∧ c ≠ '.' ∧ c ≠ 'e' ∧ c ≠ 'E'

theorem delimited_nil : Delimited [] :=
  nofun

theorem delimited_cons {c : Char} {text : List Char}
    (h : c.isDigit = false ∧ c ≠ '.' ∧ c ≠ 'e' ∧ c ≠ 'E') : Delimited (c :: text) := by
  rintro _ ⟨⟩
  exact h

/-- What a reader takes off a text, another takes off the text in front of some more. -/
def Carries (more : List Char) (read read' : Reader α) : Prop :=
  ∀ {text : List Char} {a : α} {rest : List Char},
    read text = some (a, rest) → read' (text ++ more) = some (a, rest ++ more)

section Parts

variable {more : List Char} {number? : NumberParts → Option Json}

theorem NoDigitAhead.append {text : List Char} (h : NoDigitAhead text) (hmore : Delimited more) :
    NoDigitAhead (text ++ more) := by
  cases text with
  | nil => exact fun c hc => (hmore c hc).1
  | cons c text => exact h

/-! ## Numbers -/

theorem readDigits_append (hmore : Delimited more) : Carries more readDigits readDigits := by
  intro text digits rest h
  obtain ⟨rfl, hdigits, hrest⟩ := readDigits_eq_some_iff.mp h
  exact readDigits_eq_some_iff.mpr ⟨List.append_assoc .., hdigits, hrest.append hmore⟩

theorem readWhole_append (hmore : Delimited more) : Carries more readWhole readWhole := by
  intro text digits rest h
  unfold readWhole at h
  split at h
  · obtain ⟨rfl, rfl⟩ := Prod.mk.inj (Option.some.inj h)
    rfl
  · next hzero =>
    cases text with
    | nil => cases h
    | cons c text =>
      have hc : c ≠ '0' := fun heq => hzero text (by rw [heq])
      rw [List.cons_append, readWhole.eq_2 _ fun _ heq => hc (List.cons.inj heq).1]
      exact readDigits_append hmore h

/-- Without a point there is no fraction, and a delimiter is no point. -/
theorem readFraction_append (hmore : Delimited more) : Carries more readFraction readFraction := by
  intro text fraction rest h
  unfold readFraction at h
  split at h
  · obtain ⟨⟨digits, after⟩, hdigits, h⟩ := Option.map_eq_some_iff.mp h
    obtain ⟨rfl, rfl⟩ := Prod.mk.inj h
    exact Option.map_eq_some_iff.mpr ⟨_, readDigits_append hmore hdigits, rfl⟩
  -- There is no point, so the text either goes on with something else or is at its end.
  · next hpoint =>
    obtain ⟨rfl, rfl⟩ := Prod.mk.inj (Option.some.inj h)
    rw [readFraction.eq_2]
    intro after heq
    cases text with
    | nil => exact (hmore '.' (by rw [show more = _ from heq]; rfl)).2.1 rfl
    | cons c text => exact hpoint text (by rw [(List.cons.inj heq).1])

/-- What reads the digits of an exponent reads them in front of a delimiter. -/
theorem map_readDigits_append (hmore : Delimited more) (f : List Char → α) :
    Carries more (fun text => (readDigits text).map fun (digits, rest) => (f digits, rest))
      (fun text => (readDigits text).map fun (digits, rest) => (f digits, rest)) := by
  intro text a rest h
  obtain ⟨⟨digits, after⟩, hdigits, h⟩ := Option.map_eq_some_iff.mp h
  obtain ⟨rfl, rfl⟩ := Prod.mk.inj h
  exact Option.map_eq_some_iff.mpr ⟨_, readDigits_append hmore hdigits, rfl⟩

/-- Without the letter of an exponent there is none, and a delimiter is no such letter. -/
theorem readExponent_append (hmore : Delimited more) : Carries more readExponent readExponent := by
  intro text exponent rest h
  cases text with
  | nil =>
    obtain ⟨rfl, rfl⟩ := Prod.mk.inj (Option.some.inj h)
    cases more with
    | nil => rfl
    | cons c more =>
      obtain ⟨-, -, he, hE⟩ := hmore c rfl
      exact if_neg (not_or.mpr ⟨he, hE⟩)
  | cons c text =>
    by_cases hc : c = 'e' ∨ c = 'E'
    · match text, h with
      | [], h =>
        rw [readExponent.eq_3 c [] (by simp) (by simp), if_pos hc] at h
        cases h
      | d :: text, h =>
        rw [List.cons_append, List.cons_append]
        by_cases hminus : d = '-'
        · rw [hminus, readExponent.eq_1, if_pos hc] at h ⊢
          exact map_readDigits_append hmore (fun digits => some (-(Text.toNat digits : Int))) h
        · by_cases hplus : d = '+'
          · rw [hplus, readExponent.eq_2, if_pos hc] at h ⊢
            exact map_readDigits_append hmore (fun digits => some (Text.toNat digits : Int)) h
          · have hunsigned : ∀ text, readExponent (c :: d :: text) =
                (readDigits (d :: text)).map fun (digits, rest) =>
                  (some (Text.toNat digits : Int), rest) := by
              intro text
              rw [readExponent.eq_3 _ _ (fun _ heq => hminus (List.cons.inj heq).1)
                (fun _ heq => hplus (List.cons.inj heq).1), if_pos hc]
            rw [hunsigned] at h ⊢
            exact map_readDigits_append hmore (fun digits => some (Text.toNat digits : Int)) h
    · have hnone : ∀ text, readExponent (c :: text) = some (none, c :: text) := fun text => if_neg hc
      rw [hnone] at h
      obtain ⟨rfl, rfl⟩ := Prod.mk.inj (Option.some.inj h)
      exact hnone (text ++ more)

theorem readUnsigned_append (hmore : Delimited more) (negative : Bool) :
    Carries more (readUnsigned negative) (readUnsigned negative) := by
  intro text parts rest h
  obtain ⟨⟨whole, afterWhole⟩, hwhole, h⟩ := Option.bind_eq_some_iff.mp h
  obtain ⟨⟨fraction, afterFraction⟩, hfraction, h⟩ := Option.bind_eq_some_iff.mp h
  obtain ⟨⟨exponent, afterExponent⟩, hexponent, h⟩ := Option.bind_eq_some_iff.mp h
  obtain ⟨rfl, rfl⟩ := Prod.mk.inj (Option.some.inj h)
  simp [readUnsigned, readWhole_append hmore hwhole, readFraction_append hmore hfraction,
    readExponent_append hmore hexponent]

theorem readParts_append (hmore : Delimited more) : Carries more readParts readParts := by
  intro text parts rest h
  unfold readParts at h
  split at h
  · exact readUnsigned_append hmore true h
  · next hminus =>
    have hsame := readUnsigned_append hmore false h
    cases text with
    | nil => cases h
    | cons c text =>
      rw [List.cons_append] at hsame ⊢
      rwa [readParts.eq_2 _ fun _ heq => hminus text (by rw [(List.cons.inj heq).1])]

theorem readNumber_append (hmore : Delimited more) :
    Carries more (readNumber number?) (readNumber number?) := by
  intro text document rest h
  obtain ⟨⟨parts, after⟩, hparts, h⟩ := Option.bind_eq_some_iff.mp h
  obtain ⟨number, hnumber, h⟩ := Option.bind_eq_some_iff.mp h
  obtain ⟨rfl, rfl⟩ := Prod.mk.inj (Option.some.inj h)
  simp [readNumber, readParts_append hmore hparts, hnumber]

/-! ## Words and strings -/

theorem readWord_append (word : List Char) (value : Json) :
    Carries more (readWord word value) (readWord word value) := by
  intro text document rest h
  obtain ⟨hword, h⟩ := Option.ite_none_right_eq_some.mp h
  obtain ⟨rfl, rfl⟩ := Prod.mk.inj (Option.some.inj h)
  obtain ⟨tail, rfl⟩ := List.isPrefixOf_iff_prefix.mp hword
  simp [readWord]

theorem readString_append : Carries more readString readString := by
  intro text found rest h
  unfold readString at h
  split at h
  · obtain ⟨⟨chars, after⟩, hchars, h⟩ := Option.map_eq_some_iff.mp h
    obtain ⟨rfl, rfl⟩ := Prod.mk.inj h
    exact Option.map_eq_some_iff.mpr ⟨_, Text.readQuoted_append more hchars, rfl⟩
  · cases h

/-! ## Lists -/

theorem skipBlanks_append {text rest : List Char} {c : Char} (h : skipBlanks text = c :: rest) :
    skipBlanks (text ++ more) = c :: (rest ++ more) := by
  unfold skipBlanks at h ⊢
  rw [List.dropWhile_append, h]
  rfl

/-- Items are read in the same way in front of more text, whatever reads each of them so. -/
theorem ItemsRead.append {item item' : Reader α} {close : Char} {text rest : List Char}
    {items : List α} (h : ItemsRead item close text items rest) (hnil : item [] = none)
    (hitem : ∀ a ∈ items, ∀ text after, item text = some (a, after) →
      item' (text ++ more) = some (a, after ++ more)) :
    ItemsRead item' close (text ++ more) items (rest ++ more) := by
  have hskip : ∀ {text after a}, item (skipBlanks text) = some (a, after) →
      skipBlanks (text ++ more) = skipBlanks text ++ more := by
    intro text after a hfirst
    cases hblank : skipBlanks text with
    | nil =>
      rw [hblank, hnil] at hfirst
      cases hfirst
    | cons c next => exact skipBlanks_append hblank
  induction h with
  | last first closes =>
    have ha := hitem _ (List.mem_singleton_self _) _ _ first
    rw [← hskip first] at ha
    exact .last ha (skipBlanks_append closes)
  | more first comma follow ih =>
    obtain ⟨hfirst, hothers⟩ := List.forall_mem_cons.mp hitem
    have ha := hfirst _ _ first
    rw [← hskip first] at ha
    exact .more ha (skipBlanks_append comma) (ih hothers)

theorem readList_append {item item' : Reader α} {close : Char} (hclose : close ≠ ',')
    {bound bound' : Nat} (hbound : bound ≤ bound') {text rest : List Char} {items : List α}
    (h : readList bound item close text = some (items, rest)) (hnil : item [] = none)
    (hitem : ∀ a ∈ items, ∀ text after, item text = some (a, after) →
      item' (text ++ more) = some (a, after ++ more)) :
    readList bound' item' close (text ++ more) = some (items, rest ++ more) := by
  rw [readList_eq_some_iff hclose] at h ⊢
  rcases h with ⟨hempty, rfl⟩ | ⟨⟨c, next, hfirst, hc⟩, hread, hlength⟩
  · exact Or.inl ⟨skipBlanks_append hempty, rfl⟩
  · have hskip : skipBlanks (text ++ more) = c :: (next ++ more) := skipBlanks_append hfirst
    refine Or.inr ⟨⟨c, _, hskip, hc⟩, ?_, Nat.le_trans hlength hbound⟩
    have happend := hread.append hnil hitem
    rwa [hfirst, List.cons_append, ← hskip] at happend

theorem readMember_append {value value' : Reader Json} {text rest : List Char}
    {member : String × Json} (h : readMember value text = some (member, rest))
    (hnil : value [] = none)
    (hvalue : ∀ text after, value text = some (member.2, after) →
      value' (text ++ more) = some (member.2, after ++ more)) :
    readMember value' (text ++ more) = some (member, rest ++ more) := by
  rw [readMember_eq_some_iff] at h ⊢
  obtain ⟨after, next, hkey, hcolon, h⟩ := h
  refine ⟨after ++ more, next ++ more, readString_append hkey, skipBlanks_append hcolon, ?_⟩
  have happend := hvalue _ _ h
  cases hblank : skipBlanks next with
  | nil =>
    rw [hblank, hnil] at h
    cases h
  | cons c next' => rwa [hblank, List.cons_append, ← skipBlanks_append hblank] at happend

/-! ## Documents -/

theorem readNode_nil (bound : Nat) (inner : Option (Reader Json)) :
    readNode number? bound inner [] = none :=
  rfl

theorem readNested_nil (bound depth : Nat) : readNested number? bound depth [] = none := by
  cases depth <;> exact readNode_nil _ _

/-- A document is read in the same way in front of a delimiter if the documents inside it are. -/
theorem readNode_append (hmore : Delimited more) {bound bound' : Nat} (hbound : bound ≤ bound')
    {inner inner' : Option (Reader Json)} {document : Json}
    (hinner : ∀ item ∈ inner, item [] = none ∧ (0 < document.nesting → ∃ item' ∈ inner',
      ∀ a : Json, a.nesting < document.nesting → ∀ text after, item text = some (a, after) →
        item' (text ++ more) = some (a, after ++ more)))
    {text rest : List Char} (h : readNode number? bound inner text = some (document, rest)) :
    readNode number? bound' inner' (text ++ more) = some (document, rest ++ more) := by
  unfold readNode at h
  split at h
  · exact readWord_append _ _ h
  · exact readWord_append _ _ h
  · exact readWord_append _ _ h
  · obtain ⟨⟨found, after⟩, hstring, h⟩ := Option.map_eq_some_iff.mp h
    obtain ⟨rfl, rfl⟩ := Prod.mk.inj h
    exact Option.map_eq_some_iff.mpr ⟨_, readString_append hstring, rfl⟩
  · obtain ⟨item, hitem, h⟩ := Option.bind_eq_some_iff.mp h
    obtain ⟨⟨items, _⟩, hitems, h⟩ := Option.bind_eq_some_iff.mp h
    obtain ⟨rfl, rfl⟩ := Prod.mk.inj (Option.some.inj h)
    obtain ⟨hnil, hinner⟩ := hinner item hitem
    obtain ⟨item', hitem', hcarries⟩ := hinner (Nat.succ_pos _)
    have hlist := readList_append (by decide) hbound hitems hnil
      fun a ha => hcarries a (nesting_lt_of_mem_items ha)
    exact Option.bind_eq_some_iff.mpr ⟨item', hitem', Option.bind_eq_some_iff.mpr ⟨_, hlist, rfl⟩⟩
  · obtain ⟨item, hitem, h⟩ := Option.bind_eq_some_iff.mp h
    obtain ⟨⟨members, _⟩, hmembers, h⟩ := Option.bind_eq_some_iff.mp h
    obtain ⟨rfl, rfl⟩ := Prod.mk.inj (Option.some.inj h)
    obtain ⟨hnil, hinner⟩ := hinner item hitem
    obtain ⟨item', hitem', hcarries⟩ := hinner (Nat.succ_pos _)
    have hlist := readList_append (by decide) hbound hmembers rfl fun member hm text after hread =>
      readMember_append hread hnil (hcarries member.2 (nesting_lt_of_mem_members hm))
    exact Option.bind_eq_some_iff.mpr ⟨item', hitem', Option.bind_eq_some_iff.mpr ⟨_, hlist, rfl⟩⟩
  -- The first character decides that this is a number, so more text does not make it something else.
  · next hn ht hf hquote hbracket hbrace =>
    have hnumber := readNumber_append hmore h
    cases text with
    | nil => cases h
    | cons c text =>
      have hother : ∀ {d : Char}, (∀ tail, c :: text = d :: tail → False) →
          ∀ tail, c :: (text ++ more) = d :: tail → False := by
        intro d hd tail heq
        exact hd text (by rw [(List.cons.inj heq).1])
      rw [List.cons_append] at hnumber ⊢
      rwa [readNode.eq_7 _ _ _ _ (hother hn) (hother ht) (hother hf) (hother hquote)
        (hother hbracket) (hother hbrace)]

/-- A document is read in the same way in front of a delimiter, and with other bounds that it keeps. -/
theorem readNested_append (hmore : Delimited more) {bound bound' : Nat} (hbound : bound ≤ bound')
    {depth depth' : Nat} {text rest : List Char} {document : Json}
    (h : readNested number? bound depth text = some (document, rest)) (hdepth : document.nesting ≤ depth') :
    readNested number? bound' depth' (text ++ more) = some (document, rest ++ more) := by
  -- On the depth of the first reader; the depth of the second need not be the same.
  induction depth generalizing depth' text rest document with
  | zero =>
    cases depth' with
    | zero => exact readNode_append hmore hbound (by simp) h
    | succ depth' => exact readNode_append hmore hbound (by simp) h
  | succ depth ih =>
    cases depth' with
    | zero =>
      refine readNode_append hmore hbound ?_ h
      rintro item ⟨⟩
      exact ⟨readNested_nil _ _, fun hpos => absurd hdepth (Nat.not_le_of_gt hpos)⟩
    | succ depth' =>
      refine readNode_append hmore hbound ?_ h
      rintro item ⟨⟩
      refine ⟨readNested_nil _ _, fun _ => ⟨_, rfl, fun a ha text after hread => ?_⟩⟩
      exact ih hread (Nat.le_of_lt_succ (Nat.lt_of_lt_of_le ha hdepth))

end Parts

end JsonFilter.Json
