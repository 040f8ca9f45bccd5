import JsonFilter.Evaluation.Traced
import JsonFilter.Fields
import JsonFilter.Value.Access

/-!
# Running programs

A program runs on a context, operation by operation.  The accesses work on every value of the context;
the operations that hold programs run them one level deeper and take from each its outputs, which are
all of its values if something in it exploded and at most one otherwise.
-/

namespace JsonFilter

namespace Evaluation

/-! ## Accesses -/

/-- Applies an access to every value of a context and joins what it gives.  A value of the wrong kind
fails a strict access, and is dropped from one that is not. -/
def accessAll (access : Access) (strict : Bool) (apply : Value → Option (List Value)) :
    Context → Traced Context
  | [] => pure []
  | operand :: rest =>
    match apply operand with
    | some values => (values ++ ·) <$> accessAll access strict apply rest
    | none =>
      -- Only the first value of the wrong kind is reported.
      if strict then Traced.fail (.typeMismatch access operand.kind)
      else do
        Traced.log (.dropped access operand.kind)
        accessAll access strict apply rest

/-- An access that gives one value, as one that gives a list. -/
def single (apply : Value → Option Value) (operand : Value) : Option (List Value) :=
  (apply operand).map fun value => [value]

/-! ## Combining evaluations -/

/-- The evaluation that leaves some values and explodes nothing. -/
def quiet (context : Context) : Evaluation :=
  ⟨context, false⟩

/-- The evaluation that leaves the members of some values. -/
def ofMembers (context : Context) : Evaluation :=
  ⟨context, true⟩

/-- One evaluation and then another that works on its values. -/
def andThen (first last : Evaluation) : Evaluation :=
  ⟨last.context, first.exploded || last.exploded⟩

/-- One array of the outputs of all parts. -/
def gather (parts : List Evaluation) : Evaluation :=
  ⟨[.array (parts.flatMap outputs)], parts.any exploded⟩

/-- The values of all branches that follow an evaluation. -/
def join (before : Evaluation) (branches : List Evaluation) : Evaluation :=
  ⟨branches.flatMap Evaluation.context, before.exploded || branches.any exploded⟩

/-! ## Objects -/

/-- All choices of one value for every name, with the first name changing slowest. -/
def combinations : Fields (List Value) → List (Fields Value)
  | [] => [[]]
  -- Without a value for one name there is no choice, however many there are for the others.
  | (_, []) :: _ => []
  | (key, value :: values) :: rest =>
    let others := combinations rest
    (value :: values).flatMap fun value => others.map fun fields => (key, value) :: fields

/-- Every value of the first name goes with every choice for the others. -/
theorem combinations_cons (key : String) (values : List Value) (rest : Fields (List Value)) :
    combinations ((key, values) :: rest) =
      values.flatMap fun value => (combinations rest).map fun fields => (key, value) :: fields := by
  cases values <;> rfl

/-- The values that each name of an object constructor may take: the outputs of the last entry of the
name. -/
def candidates (parts : Fields Evaluation) : Fields (List Value) :=
  Fields.ofList (Fields.mapValues outputs parts)

/-- One object for every combination of candidates. -/
def assemble (parts : Fields Evaluation) : Evaluation :=
  ⟨(combinations (candidates parts)).map .object, parts.any fun part => part.2.exploded⟩

/-! ## Operations and programs -/

/-- Fails if programs stand deeper inside each other than the limit allows. -/
def checkDepth (limit depth : Nat) : Traced Unit :=
  if limit < depth then Traced.fail (.depthExceeded limit) else pure ()

mutual

/-- Runs the operations of a program one after another. -/
def runOps (limit depth : Nat) : List Op → Context → Traced Evaluation
  | [], context => pure (quiet context)
  | op :: rest, context => do
    Traced.log (.dispatch op.code depth context.length)
    let first ← runOp limit depth op context
    first.andThen <$> runOps limit depth rest first.context

/-- Runs one operation. -/
def runOp (limit depth : Nat) : Op → Context → Traced Evaluation
  | .currentContext, context => pure (quiet context)
  | .literal value, _ => pure (quiet [value])
  | .pick key strict, context =>
    quiet <$> accessAll (.pick key) strict (single (Value.field? key)) context
  | .index position strict, context =>
    quiet <$> accessAll .index strict (single (Value.element? position)) context
  | .slice start stop strict, context =>
    if start.isNone && stop.isNone then Traced.fail .missingSliceBounds
    else quiet <$> accessAll .slice strict (single (Value.slice? start stop)) context
  | .explode strict, context => ofMembers <$> accessAll .iterate strict Value.members? context
  | .createArray elements, context => gather <$> runElements limit depth elements context
  | .createObject entries, context => do
    let parts ← runEntries limit depth entries context
    let built := assemble parts
    Traced.log (.objectsBuilt (candidates parts).length built.context.length)
    return built
  | .pipe source target, context => do
    checkDepth limit (depth + 1)
    let before ← runOps limit (depth + 1) source context
    before.join <$> before.outputs.mapM fun value => do
      checkDepth limit (depth + 1)
      runOps limit (depth + 1) target [value]

/-- Runs the programs of an array constructor, each on the same context. -/
def runElements (limit depth : Nat) : List (List Op) → Context → Traced (List Evaluation)
  | [], _ => pure []
  | ops :: rest, context => do
    checkDepth limit (depth + 1)
    let part ← runOps limit (depth + 1) ops context
    (part :: ·) <$> runElements limit depth rest context

/-- Runs the programs of an object constructor, each on the same context. -/
def runEntries (limit depth : Nat) :
    List (String × List Op) → Context → Traced (Fields Evaluation)
  | [], _ => pure []
  | (key, ops) :: rest, context => do
    checkDepth limit (depth + 1)
    let part ← runOps limit (depth + 1) ops context
    ((key, part) :: ·) <$> runEntries limit depth rest context

end

end Evaluation

end JsonFilter
