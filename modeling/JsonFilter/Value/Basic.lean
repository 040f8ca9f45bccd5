import JsonFilter.Binary64.Basic

/-!
# Values

The values that a filter reads and writes: the six kinds of JSON data, with every number a double and
the fields of an object in order.
-/

namespace JsonFilter

/-- A value. -/
inductive Value where
  | null
  | bool (b : Bool)
  | number (x : Binary64)
  | string (text : String)
  | array (items : List Value)
  | object (fields : List (String × Value))

/-- The kinds of values. -/
inductive Kind where
  | null
  | boolean
  | number
  | string
  | array
  | object
  deriving DecidableEq

/-- The name of a kind. -/
def Kind.name : Kind → String
  | null => "null"
  | boolean => "boolean"
  | number => "number"
  | string => "string"
  | array => "array"
  | object => "object"

namespace Value

/-! ## Kinds -/

/-- The kind of a value. -/
def kind : Value → Kind
  | null => .null
  | bool _ => .boolean
  | number _ => .number
  | string _ => .string
  | array _ => .array
  | object _ => .object

/-- Whether a value is an array. -/
def isArray (v : Value) : Bool :=
  v.kind = .array

/-- Whether a value is an array or an object. -/
def isComposite (v : Value) : Bool :=
  v.kind = .array || v.kind = .object

/-- The double in a number. -/
def number? : Value → Option Binary64
  | number x => some x
  | _ => none

/-- The items of an array. -/
def items? : Value → Option (List Value)
  | array items => some items
  | _ => none

/-! ## Equality -/

mutual

/-- Equality of values: numbers as numbers, so that a NaN equals nothing and the two zeros are equal,
and objects with the order of their fields. -/
def beq : Value → Value → Bool
  | null, null => true
  | bool b, bool c => b == c
  | number x, number y => x.agrees y
  | string s, string t => s == t
  | array items, array others => beqItems items others
  | object fields, object others => beqFields fields others
  | _, _ => false

/-- Equality of lists of values, item by item. -/
def beqItems : List Value → List Value → Bool
  | [], [] => true
  | v :: rest, w :: others => beq v w && beqItems rest others
  | _, _ => false

/-- Equality of lists of fields, name by name and value by value. -/
def beqFields : List (String × Value) → List (String × Value) → Bool
  | [], [] => true
  | (k, v) :: rest, (l, w) :: others => k == l && (beq v w && beqFields rest others)
  | _, _ => false

end

instance : BEq Value := ⟨beq⟩

/-! ## Nesting -/

mutual

/-- How many arrays and objects stand around the innermost part of a value; scalars have none. -/
def nesting : Value → Nat
  | array items => nestingItems items + 1
  | object fields => nestingFields fields + 1
  | _ => 0

/-- The greatest nesting of some values. -/
def nestingItems : List Value → Nat
  | [] => 0
  | v :: rest => max (nesting v) (nestingItems rest)

/-- The greatest nesting of the values of some fields. -/
def nestingFields : List (String × Value) → Nat
  | [] => 0
  | (_, v) :: rest => max (nesting v) (nestingFields rest)

end

end Value

end JsonFilter
