import JsonFilter.Proofs.Json.RoundTrip
import Mathlib.Data.List.DropRight

/-!
# Texts inside texts

A text is read inside another as on its own, since a comma or a bracket follows it there.  So the texts of some
documents give the text of an object that has them for members, or of an array.

* `Json.TextWithin`: a text holds a document that nests only so deep;
* `Json.readNested_embedded`: a text is read inside another as on its own;
* `Json.objectText`, `Json.read?_objectText`: the text of an object whose members have the given texts;
* `Json.read?_bracketed`: a text in brackets holds an array of its document.
-/

namespace JsonFilter.Json

/-! ## One text inside another -/

/-- A text holds a document that nests at most so deep. -/
def TextWithin (depth : Nat) (text : String) : Prop :=
  ∃ document, read? text = some document ∧ document.nesting ≤ depth

/-- What is left behind a document are blanks, so the next character that is none is that behind them. -/
theorem skipBlanks_append_of_nil {blanks rest : List Char} {c : Char} (h : skipBlanks blanks = [])
    (hc : isBlank c = false) : skipBlanks (blanks ++ c :: rest) = c :: rest := by
  unfold skipBlanks at h ⊢
  rw [List.dropWhile_append, h]
  exact List.dropWhile_cons_of_neg (by simp [hc])

/-- A text is read in front of a delimiter as it is on its own. -/
theorem readNested_embedded {text : String} {document : Json} (h : read? text = some document)
    {bound depth : Nat} (hbound : text.toList.length ≤ bound) (hdepth : document.nesting ≤ depth)
    {c : Char} {rest : List Char} (hc : Delimited (c :: rest)) (hblank : isBlank c = false) :
    ∃ after, readNested ofNumberParts? bound depth (skipBlanks (text.toList ++ c :: rest)) =
        some (document, after) ∧ skipBlanks after = c :: rest := by
  obtain ⟨⟨found, blanks⟩, hread, h⟩ := Option.bind_eq_some_iff.mp h
  obtain ⟨hblanks, h⟩ := Option.ite_none_right_eq_some.mp h
  obtain rfl := Option.some.inj h
  obtain ⟨first, tail, hbegins, -⟩ := begins_of_readNested hread
  have hread' := readNested_append hc hbound hread hdepth
  rw [hbegins, List.cons_append, ← skipBlanks_append hbegins] at hread'
  exact ⟨blanks ++ c :: rest, hread', skipBlanks_append_of_nil hblanks hblank⟩

/-! ## Objects -/

/-- The writer of a member whose document has the given text. -/
def memberTextWriter (member : String × String) : Text.Writer :=
  Text.named (Text.quote Text.allLetters member.1.toList) (Text.put member.2.toList)

/-- The text of an object whose members have the given texts. -/
def objectText (members : List (String × String)) : String :=
  String.ofList (Text.braced (members.map memberTextWriter) [])

/-- The text of a member holds the document of the other, which nests at most so deep. -/
structure HoldsMember (depth : Nat) (member : String × String) (found : String × Json) : Prop where
  name : member.1 = found.1
  document : read? member.2 = some found.2
  nesting : found.2.nesting ≤ depth

theorem grows_memberTextWriter (member : String × String) : Text.Grows (memberTextWriter member) := by
  intro rest
  simp only [memberTextWriter, Text.named, Text.put, Text.quote, List.length_append, List.length_cons]
  omega

/-- A member is read from its quoted name, a colon and the text of its document. -/
theorem readMember_embedded {bound depth : Nat} {member : String × String} {found : String × Json}
    (h : HoldsMember depth member found) {c : Char} {rest : List Char} (hc : Delimited (c :: rest))
    (hblank : isBlank c = false) (hbound : (memberTextWriter member (c :: rest)).length ≤ bound) :
    ∃ after, readMember (readNested ofNumberParts? bound depth)
        (skipBlanks (memberTextWriter member (c :: rest))) = some (found, after) ∧
      skipBlanks after = c :: rest := by
  obtain ⟨name, text⟩ := member
  obtain ⟨hname, hdocument, hnesting⟩ := h
  obtain rfl : name = found.1 := hname
  have hlength : text.toList.length ≤ bound := by
    simp only [memberTextWriter, Text.named, Text.put, List.length_append, List.length_cons] at hbound
    omega
  obtain ⟨after, hread, hafter⟩ := readNested_embedded hdocument hlength hnesting hc hblank
  refine ⟨after, ?_, hafter⟩
  show readMember _ (Text.quote Text.allLetters found.1.toList ++ ':' :: (text.toList ++ c :: rest)) = _
  exact readMember_eq_some_iff.mpr ⟨_, _, readString_quote Text.readable_allLetters found.1 _, rfl, hread⟩

/-- The members of an object are read one after another. -/
theorem itemsRead_memberTexts {bound depth : Nat} {members : List (String × String)}
    {found : List (String × Json)} (h : List.Forall₂ (HoldsMember depth) members found)
    (hne : members ≠ []) {rest : List Char}
    (hbound : (Text.separated (members.map memberTextWriter) ('\x7d' :: rest)).length ≤ bound) :
    ItemsRead (readMember (readNested ofNumberParts? bound depth)) '\x7d'
        (Text.separated (members.map memberTextWriter) ('\x7d' :: rest)) found rest ∧
      found.length ≤ (Text.separated (members.map memberTextWriter) ('\x7d' :: rest)).length := by
  induction h with
  | nil => exact absurd rfl hne
  | @cons member first members others hmember hmembers ih =>
    cases members with
    | nil =>
      cases hmembers
      obtain ⟨after, hread, hclose⟩ :=
        readMember_embedded hmember (delimited_cons (by decide)) rfl hbound
      have hgrow := grows_memberTextWriter member ('\x7d' :: rest)
      exact ⟨.last hread hclose, Nat.succ_le_of_lt (Nat.zero_lt_of_lt hgrow)⟩
    | cons next members =>
      rw [List.map_cons, List.map_cons, Text.separated_cons_cons] at hbound ⊢
      obtain ⟨after, hread, hcomma⟩ := readMember_embedded hmember (delimited_comma _) rfl hbound
      -- The comma makes the text of the other members shorter than the whole.
      have hgrow := grows_memberTextWriter member
        (',' :: Text.separated ((next :: members).map memberTextWriter) ('\x7d' :: rest))
      rw [List.length_cons] at hgrow
      obtain ⟨hfollow, hcount⟩ := ih (List.cons_ne_nil _ _) (by
        rw [List.map_cons] at hgrow ⊢
        omega)
      refine ⟨.more hread hcomma hfollow, ?_⟩
      rw [List.length_cons]
      rw [List.map_cons] at hgrow hcount
      omega

/-- The object whose members have the given texts is read from the text of the object. -/
theorem read?_objectText {members : List (String × String)} {found : List (String × Json)}
    (h : List.Forall₂ (HoldsMember 126) members found) : read? (objectText members) = some (object found) := by
  have hlist : ∀ bound, (Text.separated (members.map memberTextWriter) ['\x7d']).length ≤ bound →
      readList bound (readMember (readNested ofNumberParts? bound 126)) '\x7d'
        (Text.separated (members.map memberTextWriter) ['\x7d']) = some (found, []) := by
    intro bound hbound
    rw [readList_eq_some_iff (by decide)]
    cases h with
    | nil => exact Or.inl ⟨rfl, rfl⟩
    | @cons member _ members _ hmember hmembers =>
      obtain ⟨hitems, hcount⟩ := itemsRead_memberTexts (.cons hmember hmembers) (List.cons_ne_nil _ _) hbound
      have hquote : ∃ next, Text.separated ((member :: members).map memberTextWriter) ['\x7d'] =
          '"' :: next := by
        cases members <;> exact ⟨_, rfl⟩
      obtain ⟨next, hnext⟩ := hquote
      have hskip : skipBlanks ('"' :: next) = '"' :: next := rfl
      rw [hnext] at hitems hcount hbound ⊢
      rw [hskip]
      exact Or.inr ⟨⟨'"', next, rfl, by decide⟩, hitems, Nat.le_trans hcount hbound⟩
  unfold read? objectText
  simp only [String.toList_ofList]
  refine Option.bind_eq_some_iff.mpr ⟨(_, []), ?_, if_pos rfl⟩
  exact Option.bind_eq_some_iff.mpr ⟨_, hlist _ (Nat.le_succ _), rfl⟩

/-! ## Arrays -/

/-- A text in brackets holds the array of its document, if this nests less deep than texts may. -/
theorem read?_bracketed {text : String} {document : Json} (h : read? text = some document)
    (hnesting : document.nesting ≤ 126) : read? ("[" ++ text ++ "]") = some (array [document]) := by
  have hlist : ∀ bound, text.toList.length + 1 ≤ bound →
      readList bound (readNested ofNumberParts? bound 126) ']' (text.toList ++ [']']) = some ([document], []) := by
    intro bound hbound
    have hclose : Delimited [']'] := delimited_cons (by decide)
    obtain ⟨after, hread, hafter⟩ :=
      readNested_embedded h (Nat.le_of_succ_le hbound) hnesting hclose rfl
    rw [readList_eq_some_iff (by decide)]
    have hskip : skipBlanks (skipBlanks (text.toList ++ [']'])) = skipBlanks (text.toList ++ [']']) :=
      List.dropWhile_idempotent ..
    obtain ⟨c, tail, hbegins, -, hclose, -⟩ := begins_of_readNested hread
    refine Or.inr ⟨⟨c, tail, hbegins, hclose⟩, .last ?_ hafter, Nat.le_trans (Nat.le_add_left 1 _) hbound⟩
    rwa [hskip]
  unfold read?
  simp only [String.toList_append]
  refine Option.bind_eq_some_iff.mpr ⟨(_, []), ?_, if_pos rfl⟩
  refine Option.bind_eq_some_iff.mpr ⟨_, hlist _ ?_, rfl⟩
  simp

end JsonFilter.Json
