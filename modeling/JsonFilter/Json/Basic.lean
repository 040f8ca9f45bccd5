import JsonFilter.Binary64.Basic
import JsonFilter.Fields

/-!
# JSON trees

A JSON document as it is written: integers and other numbers are told apart, and an object lists its
members in order, with repeated names as often as they occur.
-/

namespace JsonFilter

/-- A JSON document. -/
inductive Json where
  | null
  | bool (b : Bool)
  /-- A number written as a 64-bit integer, signed or unsigned. -/
  | integer (n : Int)
  /-- Any other number. -/
  | float (x : Binary64)
  | string (text : String)
  | array (items : List Json)
  | object (members : List (String × Json))

namespace Json

/-! ## Nesting -/

mutual

/-- How many brackets stand around the innermost part of a document; scalars have none. -/
def nesting : Json → Nat
  | array items => nestingItems items + 1
  | object members => nestingMembers members + 1
  | _ => 0

/-- The greatest nesting of some documents. -/
def nestingItems : List Json → Nat
  | [] => 0
  | item :: rest => max (nesting item) (nestingItems rest)

/-- The greatest nesting of the members of an object. -/
def nestingMembers : List (String × Json) → Nat
  | [] => 0
  | (_, item) :: rest => max (nesting item) (nestingMembers rest)

end

/-! ## Repeated names -/

mutual

/-- Keeps each name of an object once, at every depth: at its first place, with its last value. -/
def mergeKeys : Json → Json
  | array items => array (mergeKeysItems items)
  | object members => object (Fields.ofList (mergeKeysMembers members))
  | scalar => scalar

/-- Merges repeated names inside each item. -/
def mergeKeysItems : List Json → List Json
  | [] => []
  | item :: rest => mergeKeys item :: mergeKeysItems rest

/-- Merges repeated names inside each member. -/
def mergeKeysMembers : List (String × Json) → List (String × Json)
  | [] => []
  | (key, item) :: rest => (key, mergeKeys item) :: mergeKeysMembers rest

end

end Json

end JsonFilter
