import JsonFilter.Proofs.Fields
import JsonFilter.Proofs.Program.Induction
import JsonFilter.Value.Access

/-!
# Programs as streams

A program can be read as a function from a value to the stream of its results, or failure, without any
account of what has exploded: each operation works on every value of the stream before it, and the
streams that it gives are joined in order.

* `Op.stream`, `Program.stream`: the stream of an operation and of a program on a value;
* `Program.stream_createArray`, `Program.stream_createObject`, `Program.stream_pipe`: the streams of
  operations that hold programs;
* `Program.StreamShaped`: the programs for which evaluation is this reading.
-/

namespace JsonFilter

/-! ## Streams -/

/-- What an access leaves of a value.  It gives nothing for a value that it does not apply to, which fails
a strict access. -/
def streamOfAccess (strict : Bool) : Option (List Value) → Option (List Value)
  | some values => some values
  | none => if strict then none else some []

/-- All objects that have for each name one of its candidates: the last entry of a name counts, at the
place of the first. -/
def streamOfObjects (candidates : Fields (List Value)) : List Value :=
  (Fields.choices (Fields.lastByName candidates)).map .object

namespace Op

mutual

/-- The stream of an operation on a value. -/
def stream : Op → Value → Option (List Value)
  | currentContext, value => some [value]
  | literal constant, _ => some [constant]
  | pick key strict, value => streamOfAccess strict ((value.field? key).map fun field => [field])
  | index position strict, value =>
    streamOfAccess strict ((value.element? position).map fun item => [item])
  | slice start stop strict, value =>
    streamOfAccess strict ((value.slice? start stop).map fun range => [range])
  | explode strict, value => streamOfAccess strict value.members?
  | createArray elements, value => do
    let items ← streamElements elements value
    return [.array items]
  | createObject entries, value => do
    let candidates ← streamEntries entries value
    return streamOfObjects candidates
  | pipe source target, value => do
    let values ← streamOps source [value]
    let streams ← values.mapM fun value => streamOps target [value]
    return streams.flatten

/-- The stream of some operations, each of which works on every value of the stream before it. -/
def streamOps : List Op → List Value → Option (List Value)
  | [], values => some values
  | op :: rest, values => do
    let streams ← values.mapM (stream op)
    streamOps rest streams.flatten

/-- The streams of the programs of an array constructor, one after another. -/
def streamElements : List (List Op) → Value → Option (List Value)
  | [], _ => some []
  | part :: rest, value => do
    let items ← streamOps part [value]
    let others ← streamElements rest value
    return items ++ others

/-- The streams of the programs of an object constructor, under their names. -/
def streamEntries : List (String × List Op) → Value → Option (Fields (List Value))
  | [], _ => some []
  | (key, part) :: rest, value => do
    let values ← streamOps part [value]
    let others ← streamEntries rest value
    return (key, values) :: others

end

end Op

namespace Program

/-- The stream of a program on a value. -/
def stream (program : Program) (value : Value) : Option (List Value) :=
  Op.streamOps program [value]

/-! ## Operations that hold programs -/

/-- The operations after the first work on the stream of the first. -/
theorem stream_cons (op : Op) (rest : Program) (value : Value) :
    stream (op :: rest) value = op.stream value >>= Op.streamOps rest := by
  rw [stream, Op.streamOps]
  cases h : op.stream value with
  | none => simp [h]
  | some values => simp [h]

theorem streamElements_eq_mapM (elements : List Program) (value : Value) :
    Op.streamElements elements value =
      List.flatten <$> elements.mapM fun part => stream part value := by
  induction elements with
  | nil => rfl
  | cons part rest ih =>
    rw [Op.streamElements, ih, List.mapM_cons]
    simp only [map_bind, bind_map_left, map_pure, List.flatten_cons]
    rfl

/-- An array holds the streams of its programs, joined. -/
theorem stream_createArray (elements : List Program) (value : Value) :
    (Op.createArray elements).stream value =
      (fun streams => [.array streams.flatten]) <$>
        elements.mapM fun part => stream part value := by
  rw [Op.stream, streamElements_eq_mapM, bind_map_left, map_eq_pure_bind]

theorem streamEntries_eq_mapM (entries : List (String × Program)) (value : Value) :
    Op.streamEntries entries value =
      entries.mapM fun entry => (entry.1, ·) <$> stream entry.2 value := by
  induction entries with
  | nil => rfl
  | cons entry rest ih =>
    obtain ⟨key, part⟩ := entry
    rw [Op.streamEntries, ih, List.mapM_cons, bind_map_left]
    rfl

/-- The candidates of a name are the stream of its program. -/
theorem stream_createObject (entries : List (String × Program)) (value : Value) :
    (Op.createObject entries).stream value =
      streamOfObjects <$> entries.mapM fun entry => (entry.1, ·) <$> stream entry.2 value := by
  rw [Op.stream, streamEntries_eq_mapM, map_eq_pure_bind]

/-- The target of a pipe runs on each value of the stream of the source. -/
theorem stream_pipe (source target : Program) (value : Value) :
    (Op.pipe source target).stream value =
      stream source value >>= fun values =>
        List.flatten <$> values.mapM fun value => stream target value := by
  simp only [Op.stream, map_eq_pure_bind]
  rfl

/-! ## Programs of the shape of streams -/

end Program

/-- Whether an operation gives values that do not come from its context one by one. -/
def Op.isSource : Op → Bool
  | literal _ => true
  | createArray _ => true
  | createObject _ => true
  | pipe _ _ => true
  | _ => false

/-- Whether an operation is a slice with neither a start nor an end. -/
def Op.isUnboundedSlice : Op → Bool
  | slice none none _ => true
  | _ => false

namespace Program

/-- The programs in which, at any depth, sources stand only at the beginning of a program and each slice
has a bound. -/
def StreamShaped (program : Program) : Prop :=
  program.Everywhere fun ops =>
    (∀ op ∈ ops.tail, op.isSource = false) ∧ ∀ op ∈ ops, op.isUnboundedSlice = false

end Program

end JsonFilter
