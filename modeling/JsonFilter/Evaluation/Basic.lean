import JsonFilter.Context
import JsonFilter.Program.Decode

/-!
# Evaluations

What an evaluation leaves behind: its values and whether something in it exploded, or the reason why it
failed, and the events on its way.
-/

namespace JsonFilter

/-! ## Failures -/

/-- What a strict operation tried on a value of the wrong kind. -/
inductive Access where
  | pick (key : String)
  | index
  | slice
  | iterate
  deriving DecidableEq

namespace Access

/-- The words for an access. -/
def verb : Access → String
  | pick _ | index => "index"
  | slice => "slice"
  | iterate => "iterate over"

/-- The message for an access to a value of the wrong kind. -/
def mismatch (access : Access) (kind : Kind) : String :=
  match access with
  | pick key => "Cannot index " ++ kind.name ++ " with \"" ++ key ++ "\""
  | index => "Cannot index " ++ kind.name ++ " with number"
  | access => "Cannot " ++ access.verb ++ " " ++ kind.name

end Access

/-- Why an evaluation fails.  The last two reasons arise only where a program is decoded on the way. -/
inductive EvalError where
  /-- A strict access met a value of the wrong kind. -/
  | typeMismatch (access : Access) (kind : Kind)
  /-- A slice has neither a start nor an end. -/
  | missingSliceBounds
  /-- Programs stand deeper inside each other than the limit allows. -/
  | depthExceeded (limit : Nat)
  /-- The program holds an operation that does not exist. -/
  | unknownOpcode (tag : String)
  /-- The program cannot be decoded for another reason. -/
  | invalidProgram (cause : DecodeError)

namespace EvalError

/-- The message for a failure. -/
def message : EvalError → String
  | typeMismatch access kind => access.mismatch kind
  | missingSliceBounds => "Cannot slice with no offsets"
  | depthExceeded limit => "Maximum evaluation depth (" ++ Text.decimal limit ++ ") exceeded"
  | unknownOpcode tag => "Unknown op code: " ++ tag
  | invalidProgram cause => "Invalid program: " ++ cause.message

/-- The failure of an evaluation whose program cannot be decoded. -/
def ofDecodeError : DecodeError → EvalError
  | .unknownOpcode tag => unknownOpcode tag
  | cause => invalidProgram cause

end EvalError

/-! ## Results -/

/-- The values that a program leaves, and whether it, or a program inside it, exploded a value. -/
structure Evaluation where
  context : Context
  exploded : Bool

namespace Evaluation

/-- The number of values, if something exploded. -/
def explosion (evaluation : Evaluation) : Option Nat :=
  if evaluation.exploded then some evaluation.context.length else none

/-- The values that an enclosing operation takes: all of them if something exploded, and otherwise at
most one. -/
def outputs (evaluation : Evaluation) : List Value :=
  if evaluation.exploded then evaluation.context else evaluation.context.collapse.toList

end Evaluation

/-! ## Events -/

/-- What an evaluation tells about its progress. -/
inductive Event where
  /-- An operation starts, with some values in its context. -/
  | dispatch (code : Opcode) (depth inputs : Nat)
  /-- An access that is not strict drops a value of the wrong kind. -/
  | dropped (access : Access) (kind : Kind)
  /-- Objects with some names have been built. -/
  | objectsBuilt (keys objects : Nat)
  /-- A whole evaluation has succeeded. -/
  | complete (outputs : Nat) (exploded : Bool)
  deriving DecidableEq

/-- How important an event is. -/
inductive Level where
  /-- Every step of an evaluation. -/
  | trace
  /-- What a user of a filter may want to know. -/
  | debug
  deriving DecidableEq

/-- The name of a level. -/
def Level.name : Level → String
  | trace => "TRACE"
  | debug => "DEBUG"

namespace Event

/-- The message of an event. -/
def message : Event → String
  | dispatch .. => "dispatch"
  | dropped .. => "operand dropped"
  | objectsBuilt .. => "objects built"
  | complete .. => "evaluation complete"

/-- The level of an event. -/
def level : Event → Level
  | dispatch .. | objectsBuilt .. => .trace
  | dropped .. | complete .. => .debug

end Event

end JsonFilter
