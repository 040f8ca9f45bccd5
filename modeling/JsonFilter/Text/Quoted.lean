/-!
# Quoted texts

Strings between quotation marks.  Writing escapes the quotation mark, the backslash and the control
characters below U+0020, some of them by a letter of their own and the others by four hexadecimal
digits.  Reading accepts every such escape, joins a pair of surrogate escapes into one character and
refuses surrogates that stand alone and control characters that are not escaped.
-/

namespace JsonFilter.Text

/-! ## Hexadecimal digits -/

/-- The value of a hexadecimal digit of either case. -/
def hexValue? (c : Char) : Option Nat :=
  if '0' ≤ c ∧ c ≤ '9' then some (c.toNat - '0'.toNat)
  else if 'a' ≤ c ∧ c ≤ 'f' then some (c.toNat - 'a'.toNat + 10)
  else if 'A' ≤ c ∧ c ≤ 'F' then some (c.toNat - 'A'.toNat + 10)
  else none

/-- The number named by four hexadecimal digits. -/
def hexUnit? (a b c d : Char) : Option Nat := do
  let a ← hexValue? a
  let b ← hexValue? b
  let c ← hexValue? c
  let d ← hexValue? d
  return ((a * 16 + b) * 16 + c) * 16 + d

/-! ## Writing -/

/-- Which letter escapes a character, if it has one of its own. -/
abbrev EscapeLetters := Char → Option Char

/-- The letters `b`, `f`, `n`, `r`, `t` for their control characters, and the quotation mark and the
backslash for themselves. -/
def allLetters : EscapeLetters
  | '"' => some '"'
  | '\\' => some '\\'
  | '\x08' => some 'b'
  | '\x0c' => some 'f'
  | '\n' => some 'n'
  | '\r' => some 'r'
  | '\t' => some 't'
  | _ => none

/-- The letters for the quotation mark, the backslash, line feed, carriage return and tab only. -/
def fewLetters : EscapeLetters
  | '"' => some '"'
  | '\\' => some '\\'
  | '\n' => some 'n'
  | '\r' => some 'r'
  | '\t' => some 't'
  | _ => none

/-- A character as it stands between quotation marks. -/
def escapeChar (letters : EscapeLetters) (c : Char) : List Char :=
  match letters c with
  | some letter => ['\\', letter]
  | none =>
    if c.toNat < 0x20 then
      ['\\', 'u', '0', '0', Nat.digitChar (c.toNat / 16), Nat.digitChar (c.toNat % 16)]
    else [c]

/-- A text between quotation marks. -/
def quote (letters : EscapeLetters) (text : List Char) : List Char :=
  '"' :: (text.flatMap (escapeChar letters) ++ ['"'])

/-! ## Reading -/

/-- The character that a letter behind a backslash stands for. -/
def unescapeLetter? : Char → Option Char
  | '"' => some '"'
  | '\\' => some '\\'
  | '/' => some '/'
  | 'b' => some '\x08'
  | 'f' => some '\x0c'
  | 'n' => some '\n'
  | 'r' => some '\r'
  | 't' => some '\t'
  | _ => none

/-- Whether a number is the first half of a surrogate pair. -/
def isHighSurrogate (unit : Nat) : Bool :=
  0xD800 ≤ unit && unit < 0xDC00

/-- Whether a number is the second half of a surrogate pair. -/
def isLowSurrogate (unit : Nat) : Bool :=
  0xDC00 ≤ unit && unit < 0xE000

/-- The character that a surrogate pair stands for. -/
def joinSurrogates (high low : Nat) : Char :=
  Char.ofNat (0x10000 + (high - 0xD800) * 0x400 + (low - 0xDC00))

/-- Reads up to the closing quotation mark, and gives the text before it and what follows it.  After
the first half of a surrogate pair, `high` holds that half, and only the second may follow. -/
def readQuoted : Option Nat → List Char → Option (List Char × List Char)
  | none, '"' :: rest => some ([], rest)
  | high, '\\' :: 'u' :: a :: b :: c :: d :: rest => do
    let unit ← hexUnit? a b c d
    match high with
    | some high =>
      if isLowSurrogate unit then
        let (text, rest) ← readQuoted none rest
        return (joinSurrogates high unit :: text, rest)
      else none
    | none =>
      if isHighSurrogate unit then readQuoted (some unit) rest
      else if isLowSurrogate unit then none
      else
        let (text, rest) ← readQuoted none rest
        return (Char.ofNat unit :: text, rest)
  | none, '\\' :: letter :: rest => do
    let c ← unescapeLetter? letter
    let (text, rest) ← readQuoted none rest
    return (c :: text, rest)
  -- A backslash gets here only as the last character.
  | none, c :: rest =>
    if c = '\\' ∨ c.toNat < 0x20 then none
    else do
      let (text, rest) ← readQuoted none rest
      return (c :: text, rest)
  | _, _ => none

end JsonFilter.Text
