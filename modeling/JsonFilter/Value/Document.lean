import JsonFilter.Json.Reader
import JsonFilter.Value.Basic

/-!
# Values and JSON documents

The value that a document stands for, and a document for a value.  A value holds every number as a
double and every name once, so distinct documents can stand for one value.
-/

namespace JsonFilter.Value

/-! ## From a document -/

mutual

/-- The value that a document stands for: integers become the nearest double, and a repeated name keeps
its first place and its last value. -/
def ofJson : Json → Value
  | .null => null
  | .bool b => bool b
  | .integer n => number (.ofInt n)
  | .float x => number x
  | .string text => string text
  | .array items => array (ofJsonItems items)
  | .object members => object (Fields.ofList (ofJsonMembers members))

/-- The values that some documents stand for. -/
def ofJsonItems : List Json → List Value
  | [] => []
  | item :: rest => ofJson item :: ofJsonItems rest

/-- The fields that the members of an object stand for, repeated names included. -/
def ofJsonMembers : List (String × Json) → List (String × Value)
  | [] => []
  | (key, item) :: rest => (key, ofJson item) :: ofJsonMembers rest

end

/-- The value that a JSON text stands for. -/
def parse? (text : String) : Option Value :=
  (Json.read? text).map ofJson

/-! ## To a document -/

/-- The document for a number: nothing if it is not finite, an integer if it is whole and between -2⁶³
and 2⁶³, and otherwise the double itself. -/
def numberToJson (x : Binary64) : Json :=
  if x.IsFinite then
    match x.toInt64? with
    | some n => .integer n
    | none => .float x
  else .null

mutual

/-- The document for a value. -/
def toJson : Value → Json
  | null => .null
  | bool b => .bool b
  | number x => numberToJson x
  | string text => .string text
  | array items => .array (toJsonItems items)
  | object fields => .object (toJsonFields fields)

/-- The documents for some values. -/
def toJsonItems : List Value → List Json
  | [] => []
  | v :: rest => toJson v :: toJsonItems rest

/-- The members for some fields. -/
def toJsonFields : List (String × Value) → List (String × Json)
  | [] => []
  | (key, v) :: rest => (key, toJson v) :: toJsonFields rest

end

end JsonFilter.Value
