import JsonFilter.Json.Number
import JsonFilter.Text.Digits
import JsonFilter.Text.Quoted

/-!
# Reading JSON texts

The grammar is strict: blanks are space, tab, line feed and carriage return; nothing but blanks may
follow the document; numbers have no leading zeros and no bare point; the last item of a list is not
followed by a comma.  Brackets nest at most 127 deep, and a number must not be beyond the largest double.
-/

namespace JsonFilter

/-- Takes a value off the front of a text, or refuses the text. -/
abbrev Reader (α : Type) := List Char → Option (α × List Char)

namespace Json

/-! ## Blanks and digits -/

/-- The characters that may stand between the parts of a document. -/
def isBlank (c : Char) : Bool :=
  c == ' ' || c == '\t' || c == '\n' || c == '\r'

/-- The text from its first character on that is not blank. -/
def skipBlanks (text : List Char) : List Char :=
  text.dropWhile isBlank

/-- Takes off the digits in front, of which there is at least one. -/
def readDigits : Reader (List Char) := fun text =>
  match text.span Char.isDigit with
  | ([], _) => none
  | found => some found

/-! ## Numbers -/

/-- Takes off a whole number without leading zeros. -/
def readWhole : Reader (List Char)
  | '0' :: rest => some (['0'], rest)
  | text => readDigits text

/-- Takes off a point and the digits behind it, if there is a point. -/
def readFraction : Reader (Option (List Char))
  | '.' :: rest => (readDigits rest).map fun (digits, rest) => (some digits, rest)
  | text => some (none, text)

/-- Takes off the exponent of a number, if there is one. -/
def readExponent : Reader (Option Int)
  | c :: rest =>
    if c = 'e' ∨ c = 'E' then
      match rest with
      | '-' :: rest => (readDigits rest).map fun (ds, rest) => (some (-(Text.toNat ds : Int)), rest)
      | '+' :: rest => (readDigits rest).map fun (ds, rest) => (some (Text.toNat ds : Int), rest)
      | rest => (readDigits rest).map fun (ds, rest) => (some (Text.toNat ds : Int), rest)
    else some (none, c :: rest)
  | [] => some (none, [])

/-- Takes off the parts of a number whose sign has been read. -/
def readUnsigned (negative : Bool) : Reader NumberParts := fun text => do
  let (whole, text) ← readWhole text
  let (fraction, text) ← readFraction text
  let (exponent, text) ← readExponent text
  return (⟨negative, whole, fraction, exponent⟩, text)

/-- Takes off the parts of a number. -/
def readParts : Reader NumberParts
  | '-' :: rest => readUnsigned true rest
  | text => readUnsigned false text

/-! ## Words, lists and documents -/

/-- Takes off the given word. -/
def readWord (word : List Char) (value : Json) : Reader Json := fun text =>
  if word.isPrefixOf text then some (value, text.drop word.length) else none

/-- Takes off a string, from its quotation mark on. -/
def readString : Reader String
  | '"' :: rest => (Text.readQuoted none rest).map fun (text, rest) => (String.ofList text, rest)
  | _ => none

/-- Takes off at least one and at most `count` items between commas, and the bracket that closes
them. -/
def readItems {α : Type} (item : Reader α) (close : Char) : Nat → Reader (List α)
  | 0, _ => none
  | count + 1, text => do
    let (first, text) ← item (skipBlanks text)
    match skipBlanks text with
    | [] => none
    | c :: text =>
      if c = ',' then
        let (others, text) ← readItems item close count text
        return (first :: others, text)
      else if c = close then return ([first], text)
      else none

/-- Takes off any number of items between commas, but at most `bound`, and the bracket that closes
them. -/
def readList {α : Type} (bound : Nat) (item : Reader α) (close : Char) : Reader (List α) :=
  fun text =>
    match skipBlanks text with
    | [] => none
    | c :: rest => if c = close then some ([], rest) else readItems item close bound (c :: rest)

/-- Takes off a name, a colon and a value. -/
def readMember (value : Reader Json) : Reader (String × Json) := fun text => do
  let (key, text) ← readString text
  match skipBlanks text with
  | ':' :: text =>
    let (value, text) ← value (skipBlanks text)
    return ((key, value), text)
  | _ => none

section Documents

-- What number is meant by its parts, if any.
variable (number? : NumberParts → Option Json)

/-- Takes off a number. -/
def readNumber : Reader Json := fun text => do
  let (parts, text) ← readParts text
  return (← number? parts, text)

/-- Takes off a document of lists with at most `bound` items, where `inner` reads what stands inside
its brackets; without `inner` there may be no brackets. -/
def readNode (bound : Nat) (inner : Option (Reader Json)) : Reader Json
  | 'n' :: text => readWord ['u', 'l', 'l'] null text
  | 't' :: text => readWord ['r', 'u', 'e'] (bool true) text
  | 'f' :: text => readWord ['a', 'l', 's', 'e'] (bool false) text
  | '"' :: text => (readString ('"' :: text)).map fun (text, rest) => (string text, rest)
  | '[' :: text => do
    let item ← inner
    let (items, rest) ← readList bound item ']' text
    return (array items, rest)
  | '\x7b' :: text => do
    let item ← inner
    let (members, rest) ← readList bound (readMember item) '\x7d' text
    return (object members, rest)
  | text => readNumber number? text

/-- Takes off a document of lists with at most `bound` items, whose brackets nest at most `depth`
deep. -/
def readNested (bound : Nat) : (depth : Nat) → Reader Json
  | 0 => readNode number? bound none
  | depth + 1 => readNode number? bound (some (readNested bound depth))

end Documents

/-- How deep the brackets of a document may nest. -/
def maxNesting : Nat :=
  127

/-- The document that a text holds, as it is written.  No list has more items than the text has
characters. -/
def read? (text : String) : Option Json := do
  let chars := text.toList
  let (document, rest) ← readNested ofNumberParts? chars.length maxNesting (skipBlanks chars)
  if skipBlanks rest = [] then some document else none

/-- The document that a text holds, with every repeated name merged. -/
def parse? (text : String) : Option Json :=
  (read? text).map mergeKeys

end Json

end JsonFilter
