import JsonFilter.Value.Basic

/-!
# Programs

A filter program is a list of operations that run one after another.  Some operations hold programs of
their own.  The flag `strict` of an access decides what becomes of a value of the wrong kind: a strict
access fails, and one that is not strict drops the value.
-/

namespace JsonFilter

/-- One operation of a filter. -/
inductive Op where
  /-- Passes the context on. -/
  | currentContext
  /-- Replaces the whole context by one value. -/
  | literal (value : Value)
  /-- Takes a field of every value. -/
  | pick (key : String) (strict : Bool)
  /-- Takes an item of every value. -/
  | index (position : Int) (strict : Bool)
  /-- Takes a range of every value. -/
  | slice (start stop : Option Int) (strict : Bool)
  /-- Replaces every value by its members. -/
  | explode (strict : Bool)
  /-- Builds one array from the outputs of all element programs. -/
  | createArray (elements : List (List Op))
  /-- Builds one object for each combination of the outputs of the entries. -/
  | createObject (entries : List (String × List Op))
  /-- Runs the second program once for each output of the first. -/
  | pipe (source target : List Op)

/-- A filter program. -/
abbrev Program := List Op

/-- The sorts of operations. -/
inductive Opcode where
  | currentContext
  | literal
  | pick
  | index
  | slice
  | explode
  | createArray
  | createObject
  | pipe
  deriving DecidableEq

namespace Opcode

/-- The name of a sort of operations. -/
def name : Opcode → String
  | currentContext => "current_context"
  | literal => "literal"
  | pick => "pick"
  | index => "index"
  | slice => "slice"
  | explode => "explode"
  | createArray => "create_array"
  | createObject => "create_object"
  | pipe => "pipe"

/-- All sorts of operations. -/
def all : List Opcode :=
  [currentContext, literal, pick, index, slice, explode, createArray, createObject, pipe]

/-- The sort of operations with a given name. -/
def ofName? (name : String) : Option Opcode :=
  all.find? fun code => code.name == name

/-- Every sort is found by its name. -/
theorem ofName?_name (code : Opcode) : ofName? code.name = some code := by
  cases code <;> decide

end Opcode

namespace Op

/-- The sort of an operation. -/
def code : Op → Opcode
  | currentContext => .currentContext
  | literal _ => .literal
  | pick .. => .pick
  | index .. => .index
  | slice .. => .slice
  | explode _ => .explode
  | createArray _ => .createArray
  | createObject _ => .createObject
  | pipe .. => .pipe

/-! ## Equality -/

mutual

/-- Equality of operations, with literals compared as values. -/
def beq : Op → Op → Bool
  | currentContext, currentContext => true
  | literal v, literal w => v == w
  | pick key strict, pick key' strict' => key == key' && strict == strict'
  | index position strict, index position' strict' => position == position' && strict == strict'
  | slice start stop strict, slice start' stop' strict' =>
    start == start' && stop == stop' && strict == strict'
  | explode strict, explode strict' => strict == strict'
  | createArray elements, createArray elements' => beqElements elements elements'
  | createObject entries, createObject entries' => beqEntries entries entries'
  | pipe source target, pipe source' target' => beqOps source source' && beqOps target target'
  | _, _ => false

/-- Equality of programs, operation by operation. -/
def beqOps : List Op → List Op → Bool
  | [], [] => true
  | op :: rest, op' :: rest' => beq op op' && beqOps rest rest'
  | _, _ => false

/-- Equality of lists of programs. -/
def beqElements : List (List Op) → List (List Op) → Bool
  | [], [] => true
  | ops :: rest, ops' :: rest' => beqOps ops ops' && beqElements rest rest'
  | _, _ => false

/-- Equality of lists of entries. -/
def beqEntries : List (String × List Op) → List (String × List Op) → Bool
  | [], [] => true
  | (key, ops) :: rest, (key', ops') :: rest' =>
    key == key' && (beqOps ops ops' && beqEntries rest rest')
  | _, _ => false

end

instance : BEq Op := ⟨beq⟩

/-! ## Nesting -/

mutual

/-- How deep programs stand inside an operation: none for one that holds no program, and otherwise one
more than the greatest nesting of the programs that it holds. -/
def nesting : Op → Nat
  | createArray elements => nestingElements elements
  | createObject entries => nestingEntries entries
  | pipe source target => max (nestingOps source + 1) (nestingOps target + 1)
  | _ => 0

/-- The greatest nesting of the operations of a program. -/
def nestingOps : List Op → Nat
  | [] => 0
  | op :: rest => max (nesting op) (nestingOps rest)

/-- One more than the greatest nesting of some programs, if there are any. -/
def nestingElements : List (List Op) → Nat
  | [] => 0
  | ops :: rest => max (nestingOps ops + 1) (nestingElements rest)

/-- One more than the greatest nesting of the programs of some entries, if there are any. -/
def nestingEntries : List (String × List Op) → Nat
  | [] => 0
  | (_, ops) :: rest => max (nestingOps ops + 1) (nestingEntries rest)

end

end Op

namespace Program

/-- How deep programs stand inside a program. -/
def nesting (program : Program) : Nat :=
  Op.nestingOps program

/-- Equality of programs, with literals compared as values. -/
def agrees (program other : Program) : Bool :=
  Op.beqOps program other

end Program

end JsonFilter
