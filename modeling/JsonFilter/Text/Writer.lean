/-!
# Writers of texts

A writer puts its text in front of what follows, so that the parts of a nested text are put together
without copying any of them more than once.
-/

namespace JsonFilter.Text

/-- Puts a text in front of another. -/
abbrev Writer := List Char → List Char

/-- The writer of a given text. -/
def put (text : List Char) : Writer := fun rest => text ++ rest

/-- Some texts with commas between them. -/
def separated : List Writer → Writer
  | [], rest => rest
  | writer :: others, rest =>
    match others with
    | [] => writer rest
    | _ => writer (',' :: separated others rest)

/-- Some texts with commas between them, in brackets. -/
def bracketed (writers : List Writer) : Writer := fun rest =>
  '[' :: separated writers (']' :: rest)

/-- Some texts with commas between them, in braces. -/
def braced (writers : List Writer) : Writer := fun rest =>
  '\x7b' :: separated writers ('\x7d' :: rest)

/-- A name, a colon and a text. -/
def named (name : List Char) (writer : Writer) : Writer := fun rest =>
  name ++ ':' :: writer rest

/-- The word for a truth value. -/
def ofBool (b : Bool) : List Char :=
  if b then ['t', 'r', 'u', 'e'] else ['f', 'a', 'l', 's', 'e']

/-- The word for nothing. -/
def nullWord : List Char :=
  ['n', 'u', 'l', 'l']

end JsonFilter.Text
