import JsonFilter.Json.Reader
import JsonFilter.Program.Shape

/-!
# Options of an evaluation

The one option is the limit on the depth at which programs may stand inside each other.  Options can be
read from a JSON document: an object, in which other names are passed over, or an array.
-/

namespace JsonFilter

/-- The options of an evaluation. -/
structure Options where
  /-- How deep programs may stand inside each other. -/
  maxDepth : Nat := 302
  deriving DecidableEq

namespace Options

/-- The name of the limit in a document. -/
def maxDepthName : String :=
  "max_depth"

/-- Reads a named option; other names are passed over. -/
def setNamed (options : Options) (member : String × Json) : Except ShapeFault Options :=
  if member.1 = maxDepthName then do return { options with maxDepth := ← member.2.asSize }
  else .ok options

/-- The options that a document holds; what it does not tell has its default. -/
def ofJson : Json → Except ShapeFault Options
  | .object members => members.foldlM setNamed {}
  | .array [] => .ok {}
  | .array (limit :: rest) => do
    let limit ← limit.asSize
    if rest.isEmpty then .ok ⟨limit⟩ else .error (.tooLong (rest.length + 1))
  | other => .error (.invalidType other .options)

end Options

end JsonFilter
