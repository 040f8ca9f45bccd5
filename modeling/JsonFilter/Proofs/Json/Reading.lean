import JsonFilter.Json.Reader
import JsonFilter.Proofs.Decimal.Scaled
import JsonFilter.Proofs.Json.Induction

/-!
# Reading documents

What a reader that succeeds has found.

* `Json.ItemsRead`, `Json.readItems_eq_some_iff`: the items of a list, without a bound on their number;
* `Json.readMember_eq_some_iff`: a member is a name, a colon and a value;
* `Json.wellFormed_of_readNested`, `Json.wellFormed_of_read?`: a document that is read holds no other numbers
  than texts can name, and nests no deeper than allowed.
-/

namespace JsonFilter.Json

variable {α : Type}

/-! ## Lists -/

/-- At least one item is read from a text, with commas between the items and a bracket behind them. -/
inductive ItemsRead (item : Reader α) (close : Char) : List Char → List α → List Char → Prop
  | last {text after rest : List Char} {a : α} (first : item (skipBlanks text) = some (a, after))
      (closes : skipBlanks after = close :: rest) : ItemsRead item close text [a] rest
  | more {text after next rest : List Char} {a : α} {others : List α}
      (first : item (skipBlanks text) = some (a, after)) (comma : skipBlanks after = ',' :: next)
      (follow : ItemsRead item close next others rest) :
      ItemsRead item close text (a :: others) rest

/-- Items are read exactly if there are no more of them than allowed. -/
theorem readItems_eq_some_iff {item : Reader α} {close : Char} (hclose : close ≠ ',') {count : Nat}
    {text rest : List Char} {items : List α} :
    readItems item close count text = some (items, rest) ↔
      ItemsRead item close text items rest ∧ items.length ≤ count := by
  constructor
  · intro h
    induction count generalizing text items with
    | zero => cases h
    | succ count ih =>
      obtain ⟨⟨a, after⟩, hfirst, h⟩ := Option.bind_eq_some_iff.mp h
      dsimp only at h
      split at h
      · cases h
      · next c next hafter =>
        split at h
        · next hcomma =>
          obtain ⟨⟨others, rest'⟩, hothers, h⟩ := Option.bind_eq_some_iff.mp h
          obtain ⟨rfl, rfl⟩ := Prod.mk.inj (Option.some.inj h)
          obtain ⟨follow, hlength⟩ := ih hothers
          rw [hcomma] at hafter
          exact ⟨.more hfirst hafter follow, Nat.succ_le_succ hlength⟩
        · split at h
          · next hc =>
            obtain ⟨rfl, rfl⟩ := Prod.mk.inj (Option.some.inj h)
            rw [hc] at hafter
            exact ⟨.last hfirst hafter, Nat.succ_le_succ (Nat.zero_le count)⟩
          · cases h
  · rintro ⟨h, hlength⟩
    induction h generalizing count with
    | last first closes =>
      cases count with
      | zero => cases hlength
      | succ count => simp [readItems, first, closes, hclose]
    | more first comma follow ih =>
      cases count with
      | zero => cases hlength
      | succ count => simp [readItems, first, comma, ih (Nat.le_of_succ_le_succ hlength)]

/-- A list is read up to its bracket at once, or by its items. -/
theorem readList_eq_some_iff {item : Reader α} {close : Char} (hclose : close ≠ ',') {bound : Nat}
    {text rest : List Char} {items : List α} :
    readList bound item close text = some (items, rest) ↔
      (skipBlanks text = close :: rest ∧ items = []) ∨
        ((∃ c next, skipBlanks text = c :: next ∧ c ≠ close) ∧
          ItemsRead item close (skipBlanks text) items rest ∧ items.length ≤ bound) := by
  rw [← readItems_eq_some_iff hclose]
  unfold readList
  cases skipBlanks text with
  | nil => simp
  | cons c next =>
    by_cases hc : c = close
    · simp [hc, and_comm, eq_comm]
    · simp [hc]

/-- A member is read as a name, a colon and a value. -/
theorem readMember_eq_some_iff {value : Reader Json} {text rest : List Char}
    {member : String × Json} :
    readMember value text = some (member, rest) ↔
      ∃ after next, readString text = some (member.1, after) ∧ skipBlanks after = ':' :: next ∧
        value (skipBlanks next) = some (member.2, rest) := by
  obtain ⟨key, json⟩ := member
  constructor
  · intro h
    obtain ⟨⟨key', after⟩, hkey, h⟩ := Option.bind_eq_some_iff.mp h
    dsimp only at h
    split at h
    · next next hafter =>
      obtain ⟨⟨json', rest'⟩, hvalue, h⟩ := Option.bind_eq_some_iff.mp h
      obtain ⟨hmember, rfl⟩ := Prod.mk.inj (Option.some.inj h)
      obtain ⟨rfl, rfl⟩ := Prod.mk.inj hmember
      exact ⟨after, next, hkey, hafter, hvalue⟩
    · cases h
  · rintro ⟨after, next, hkey, hafter, hvalue⟩
    simp [readMember, hkey, hafter, hvalue]

/-! ## What can be read -/

/-- A number that a text can name: an integer of 64 bits, with or without sign, or a finite double. -/
def IsNumber : Json → Prop
  | integer n => -Nat.pow 2 63 ≤ n ∧ n < Nat.pow 2 64
  | float x => x.IsFinite
  | _ => False

/-- The documents that hold no other numbers than texts can name. -/
inductive WellFormed : Json → Prop
  | null : WellFormed null
  | bool (b : Bool) : WellFormed (bool b)
  | integer {n : Int} (h : IsNumber (integer n)) : WellFormed (integer n)
  | float {x : Binary64} (h : IsNumber (float x)) : WellFormed (float x)
  | string (text : String) : WellFormed (string text)
  | array {items : List Json} (h : ∀ item ∈ items, WellFormed item) : WellFormed (array items)
  | object {members : List (String × Json)} (h : ∀ member ∈ members, WellFormed member.2) :
      WellFormed (object members)

theorem IsNumber.wellFormed {document : Json} (h : document.IsNumber) : document.WellFormed := by
  cases document with
  | integer n => exact .integer h
  | float x => exact .float h
  | _ => cases h

theorem IsNumber.nesting_eq {document : Json} (h : document.IsNumber) : document.nesting = 0 := by
  cases document with
  | integer n => rfl
  | float x => rfl
  | _ => cases h

theorem isNumber_of_ofDecimal? {negative : Bool} {d : ShortDecimal} {document : Json}
    (h : ofDecimal? negative d = some document) : document.IsNumber := by
  obtain ⟨x, hx, rfl⟩ := Option.map_eq_some_iff.mp h
  exact ShortDecimal.isFinite_of_scaled? hx

theorem isNumber_of_ofNumberParts? {parts : NumberParts} {document : Json}
    (h : ofNumberParts? parts = some document) : document.IsNumber := by
  have h63 : Nat.pow 2 63 = 9223372036854775808 := rfl
  have h64 : Nat.pow 2 64 = 18446744073709551616 := rfl
  unfold ofNumberParts? at h
  generalize takeDigits 0 parts.whole = found at h
  obtain ⟨word, unread⟩ := found
  have hword := word.isLt
  dsimp only at h
  split at h
  · split at h
    · split at h
      · obtain rfl := Option.some.inj h
        constructor <;> omega
      · obtain rfl := Option.some.inj h
        exact Binary64.isFinite_ofNat true hword (by decide)
    · obtain rfl := Option.some.inj h
      constructor <;> omega
  · exact isNumber_of_ofDecimal? h

theorem isNumber_of_readNumber {text rest : List Char} {document : Json}
    (h : readNumber ofNumberParts? text = some (document, rest)) : document.IsNumber := by
  obtain ⟨_, -, h⟩ := Option.bind_eq_some_iff.mp h
  obtain ⟨number, hnumber, h⟩ := Option.bind_eq_some_iff.mp h
  obtain ⟨rfl, -⟩ := Prod.mk.inj (Option.some.inj h)
  exact isNumber_of_ofNumberParts? hnumber

theorem ItemsRead.forall {item : Reader α} {close : Char} {text rest : List Char} {items : List α}
    (h : ItemsRead item close text items rest) {P : α → Prop}
    (hitem : ∀ text a after, item text = some (a, after) → P a) : ∀ a ∈ items, P a := by
  induction h with
  | last first _ => exact List.forall_mem_singleton.mpr (hitem _ _ _ first)
  | more first _ _ ih => exact List.forall_mem_cons.mpr ⟨hitem _ _ _ first, ih⟩

/-- What holds of every item that can be read holds of the items of every list. -/
theorem forall_of_readList {item : Reader α} {close : Char} (hclose : close ≠ ',') {bound : Nat}
    {text rest : List Char} {items : List α}
    (h : readList bound item close text = some (items, rest)) {P : α → Prop}
    (hitem : ∀ text a after, item text = some (a, after) → P a) : ∀ a ∈ items, P a := by
  rcases (readList_eq_some_iff hclose).mp h with ⟨-, rfl⟩ | ⟨-, hread, -⟩
  · exact fun a ha => absurd ha List.not_mem_nil
  · exact hread.forall hitem

/-- A document whose brackets are read by `inner` is well formed and nests one level deeper. -/
theorem wellFormed_of_readNode {bound depth : Nat} {inner : Option (Reader Json)}
    (hinner : ∀ item ∈ inner, 0 < depth ∧ ∀ text a after, item text = some (a, after) →
      a.WellFormed ∧ a.nesting < depth)
    {text rest : List Char} {document : Json}
    (h : readNode ofNumberParts? bound inner text = some (document, rest)) :
    document.WellFormed ∧ document.nesting ≤ depth := by
  unfold readNode at h
  split at h
  · obtain ⟨-, h⟩ := Option.ite_none_right_eq_some.mp h
    obtain ⟨rfl, -⟩ := Prod.mk.inj (Option.some.inj h)
    exact ⟨.null, Nat.zero_le _⟩
  · obtain ⟨-, h⟩ := Option.ite_none_right_eq_some.mp h
    obtain ⟨rfl, -⟩ := Prod.mk.inj (Option.some.inj h)
    exact ⟨.bool true, Nat.zero_le _⟩
  · obtain ⟨-, h⟩ := Option.ite_none_right_eq_some.mp h
    obtain ⟨rfl, -⟩ := Prod.mk.inj (Option.some.inj h)
    exact ⟨.bool false, Nat.zero_le _⟩
  · obtain ⟨_, -, h⟩ := Option.map_eq_some_iff.mp h
    obtain ⟨rfl, -⟩ := Prod.mk.inj h
    exact ⟨.string _, Nat.zero_le _⟩
  · obtain ⟨item, hitem, h⟩ := Option.bind_eq_some_iff.mp h
    obtain ⟨⟨items, _⟩, hitems, h⟩ := Option.bind_eq_some_iff.mp h
    obtain ⟨rfl, -⟩ := Prod.mk.inj (Option.some.inj h)
    obtain ⟨hdepth, hread⟩ := hinner item hitem
    have hforall := forall_of_readList (by decide) hitems hread
    obtain ⟨depth, rfl⟩ := Nat.exists_eq_succ_of_ne_zero (Nat.ne_of_gt hdepth)
    exact ⟨.array fun a ha => (hforall a ha).1,
      nesting_array_le_iff.mpr fun a ha => Nat.le_of_lt_succ (hforall a ha).2⟩
  · obtain ⟨item, hitem, h⟩ := Option.bind_eq_some_iff.mp h
    obtain ⟨⟨members, _⟩, hmembers, h⟩ := Option.bind_eq_some_iff.mp h
    obtain ⟨rfl, -⟩ := Prod.mk.inj (Option.some.inj h)
    obtain ⟨hdepth, hread⟩ := hinner item hitem
    have hforall := forall_of_readList (P := fun member : String × Json =>
      member.2.WellFormed ∧ member.2.nesting < depth) (by decide) hmembers fun text member after hm => by
        obtain ⟨_, _, -, -, hvalue⟩ := readMember_eq_some_iff.mp hm
        exact hread _ _ _ hvalue
    obtain ⟨depth, rfl⟩ := Nat.exists_eq_succ_of_ne_zero (Nat.ne_of_gt hdepth)
    exact ⟨.object fun member hm => (hforall member hm).1,
      nesting_object_le_iff.mpr fun member hm => Nat.le_of_lt_succ (hforall member hm).2⟩
  · have hnumber := isNumber_of_readNumber h
    exact ⟨hnumber.wellFormed, by rw [hnumber.nesting_eq]; exact Nat.zero_le _⟩

/-- A document that is read is well formed and nests no deeper than its reader allows. -/
theorem wellFormed_of_readNested {bound depth : Nat} {text rest : List Char} {document : Json}
    (h : readNested ofNumberParts? bound depth text = some (document, rest)) :
    document.WellFormed ∧ document.nesting ≤ depth := by
  induction depth generalizing text rest document with
  | zero => exact wellFormed_of_readNode (by simp) h
  | succ depth ih =>
    refine wellFormed_of_readNode ?_ h
    rintro item ⟨⟩
    refine ⟨Nat.succ_pos depth, fun text a after ha => ?_⟩
    obtain ⟨hwell, hnesting⟩ := ih ha
    exact ⟨hwell, Nat.lt_succ_of_le hnesting⟩

theorem wellFormed_of_read? {text : String} {document : Json} (h : read? text = some document) :
    document.WellFormed ∧ document.nesting ≤ maxNesting := by
  obtain ⟨⟨read, rest⟩, hread, h⟩ := Option.bind_eq_some_iff.mp h
  obtain ⟨-, h⟩ := Option.ite_none_right_eq_some.mp h
  obtain rfl := Option.some.inj h
  exact wellFormed_of_readNested hread

end JsonFilter.Json
