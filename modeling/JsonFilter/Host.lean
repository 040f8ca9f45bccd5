import JsonFilter.Evaluation.Options
import JsonFilter.Evaluation.Run
import JsonFilter.Value.Printer

/-!
# Filters for hosts

The ways in which a host runs a program: on a context, on one value, or from text to text.
-/

namespace JsonFilter

namespace Program

/-! ## Programs on contexts and values -/

/-- Runs a program on a context and notes the events. -/
def trace (program : Program) (context : Context) (options : Options) : Traced Evaluation := do
  Evaluation.checkDepth options.maxDepth 0
  let evaluation ← Evaluation.runOps options.maxDepth 0 program context
  Traced.log (.complete evaluation.context.length evaluation.exploded)
  return evaluation

/-- Runs a program on a context. -/
def evaluate (program : Program) (context : Context) (options : Options) :
    Except EvalError Evaluation :=
  (program.trace context options).outcome

/-- Runs a program on one value and gives the values that it leaves. -/
def run (program : Program) (input : Value) (options : Options) : Except EvalError Context := do
  return (← program.evaluate [input] options).context

end Program

/-- Runs a program on one value with the default options. -/
def execute (input : Value) (program : Program) : Except EvalError Context :=
  program.run input {}

/-- Decodes a program from its JSON text and runs it on one value. -/
def runText (program : String) (input : Value) (options : Options) : Except EvalError Context := do
  let program ← (Program.parse program).mapError EvalError.ofDecodeError
  program.run input options

/-! ## From text to text -/

/-- Why a run from text to text fails. -/
inductive HostError where
  /-- The program cannot be decoded. -/
  | program (cause : DecodeError)
  /-- The evaluation fails. -/
  | evaluation (cause : EvalError)
  /-- The input is no JSON document. -/
  | input

/-- Decodes a program and reads an input, runs the one on the other, and gives the compact text of
every result. -/
def executeText (input program : String) : Except HostError (List String) := do
  let program ← (Program.parse program).mapError .program
  let input ← (Value.parse? input).elim (.error .input) .ok
  let results ← (execute input program).mapError .evaluation
  return results.map Value.compactText

end JsonFilter
