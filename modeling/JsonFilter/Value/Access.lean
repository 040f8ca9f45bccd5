import JsonFilter.Fields
import JsonFilter.Text.Digits
import JsonFilter.Value.Basic

/-!
# Access to the parts of values

Fields by name, items by position, ranges and members.  Each access answers nothing for a value of a
kind that it does not apply to; inside a value that it applies to, a part that is not there is null.
-/

namespace JsonFilter

/-- Whether a text spells a natural number in decimal digits, without leading zeros. -/
def isPosition : List Char → Bool
  | [] => false
  | ['0'] => true
  | first :: rest => first != '0' && first.isDigit && rest.all Char.isDigit

/-- The item at the position that a name spells.  A name with more digits than the number of items
spells no position of theirs. -/
def itemNamed? {α : Type} (items : List α) (name : String) : Option α :=
  let digits := name.toList
  if isPosition digits && digits.length ≤ (Text.ofNat items.length).length then
    items[Text.toNat digits]?
  else none

/-- Where a bound of a range falls in a sequence of the given length: negative bounds count from the
end, and bounds outside the sequence move to its nearer end. -/
def clampBound (length : Nat) (bound : Int) : Nat :=
  if bound < 0 then (length + bound).toNat else min bound.toNat length

/-- The positions from which and up to which a range goes, in a sequence of the given length; an end
before the start gives an empty range. -/
def rangeBounds (length : Nat) (start stop : Option Int) : Nat × Nat :=
  let first := (start.map (clampBound length)).getD 0
  let last := (stop.map (clampBound length)).getD length
  (first, max last first)

/-- The items of a sequence in a range. -/
def sliceList {α : Type} (items : List α) (start stop : Option Int) : List α :=
  let range := rangeBounds items.length start stop
  (items.drop range.1).take (range.2 - range.1)

namespace Value

/-- The value of a field of an object, or the item of an array at the position that the name spells;
null if there is none. -/
def field? (key : String) : Value → Option Value
  | object fields => some ((Fields.get? key fields).getD null)
  | array items => some ((itemNamed? items key).getD null)
  | _ => none

/-- The item of an array at a position, counted from the end if it is negative; null if there is
none. -/
def element? (position : Int) : Value → Option Value
  | array items =>
    let place := if position < 0 then items.length + position else position
    some (if place < 0 then null else items[place.toNat]?.getD null)
  | _ => none

/-- The part of an array, or of the characters of a string, in a range. -/
def slice? (start stop : Option Int) : Value → Option Value
  | array items => some (array (sliceList items start stop))
  | string text => some (string (String.ofList (sliceList text.toList start stop)))
  | _ => none

/-- The items of an array, or the values of the fields of an object, in order. -/
def members? : Value → Option (List Value)
  | array items => some items
  | object fields => some (fields.map Prod.snd)
  | _ => none

end Value

end JsonFilter
