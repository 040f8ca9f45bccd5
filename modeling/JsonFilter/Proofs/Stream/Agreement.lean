import JsonFilter.Proofs.Evaluation.Arity
import JsonFilter.Proofs.Stream.Denotation

/-!
# Evaluation as streams

On one value, a program of the shape of streams leaves exactly its stream: the account of what has exploded
decides nothing that the plain reading does not say.

* `Program.streamOps_eq_result`: operations that are no sources work value by value on any context;
* `Program.stream_eq_result`: the stream of a program is what it leaves of one value;
* `Program.evaluate_iff_stream`: the same of evaluations under a sufficient limit.
-/

namespace JsonFilter

namespace Evaluation

/-! ## Values and outputs -/

/-- On one value, taking the outputs of a result and taking its values is the same. -/
theorem map_outputs_result (program : Program) (value : Value) :
    outputs <$> program.result [value] = Evaluation.context <$> program.result [value] := by
  cases h : program.result [value] with
  | none => rfl
  | some evaluation => exact congrArg some (outputs_of_result h)

/-! ## Accesses -/

theorem accessOne_toOption (access : Access) (strict : Bool) (apply : Value → Option (List Value))
    (operand : Value) :
    (accessOne access strict apply operand).toOption = streamOfAccess strict (apply operand) := by
  unfold accessOne streamOfAccess
  cases apply operand with
  | some values => rfl
  | none => cases strict <;> rfl

/-- An access leaves what it leaves of each value, in order. -/
theorem accessEach_toOption (access : Access) (strict : Bool)
    (apply : Value → Option (List Value)) (context : Context) :
    (accessEach access strict apply context).toOption =
      List.flatten <$> context.mapM fun operand => streamOfAccess strict (apply operand) := by
  rw [accessEach, Traverse.toOption_map, Traverse.toOption_mapM]
  simp only [accessOne_toOption]

/-- An operation that is no source leaves of a context the streams of its values, joined. -/
theorem map_context_result_of_not_isSource {op : Op} (hsource : op.isSource = false)
    (hbounded : op.isUnboundedSlice = false) (context : Context) :
    Evaluation.context <$> Program.result [op] context =
      List.flatten <$> context.mapM op.stream := by
  rw [Program.result_singleton]
  cases op with
  | currentContext =>
    have hstream : context.mapM Op.currentContext.stream = some (context.map fun value => [value]) :=
      List.mapM_pure
    rw [hstream]
    exact congrArg some (List.flatMap_singleton' _).symm
  | pick key strict =>
    rw [step, Traverse.toOption_map, accessEach_toOption, Functor.map_map]
    exact id_map _
  | index position strict =>
    rw [step, Traverse.toOption_map, accessEach_toOption, Functor.map_map]
    exact id_map _
  | slice start stop strict =>
    have hbounds : ¬ (start.isNone && stop.isNone) = true := by
      cases start <;> cases stop <;> simp_all [Op.isUnboundedSlice]
    rw [step, if_neg hbounds, Traverse.toOption_map, accessEach_toOption, Functor.map_map]
    exact id_map _
  | explode strict =>
    rw [step, Traverse.toOption_map, accessEach_toOption, Functor.map_map]
    exact id_map _
  | literal value => cases hsource
  | createArray elements => cases hsource
  | createObject entries => cases hsource
  | pipe source target => cases hsource

/-! ## Objects -/

/-- The objects of an object constructor are those of the streams of its entries. -/
theorem streamOfObjects_outputs (parts : Fields Evaluation) :
    streamOfObjects (parts.map fun part => (part.1, part.2.outputs)) =
      (assemble parts).context := by
  rw [assemble, candidates, combinations_eq_choices, Fields.ofList_eq_lastByName]
  rfl

end Evaluation

namespace Program

open Evaluation

/-! ## Programs on contexts -/

/-- Operations that are no sources leave of a context the stream that starts with its values. -/
theorem streamOps_eq_result {program : Program} (hsource : ∀ op ∈ program, op.isSource = false)
    (hbounded : ∀ op ∈ program, op.isUnboundedSlice = false) (context : Context) :
    Op.streamOps program context = Evaluation.context <$> program.result context := by
  induction program generalizing context with
  | nil => rfl
  | cons op rest ih =>
    obtain ⟨hop, hrest⟩ := List.forall_mem_cons.mp hsource
    obtain ⟨hop', hrest'⟩ := List.forall_mem_cons.mp hbounded
    have hfirst := map_context_result_of_not_isSource hop hop' context
    rw [Op.streamOps, result_cons, map_bind]
    simp only [Functor.map_map]
    calc context.mapM op.stream >>= (fun streams => Op.streamOps rest streams.flatten)
        = (List.flatten <$> context.mapM op.stream) >>= Op.streamOps rest := by rw [bind_map_left]
      _ = result [op] context >>= (fun first => Op.streamOps rest first.context) := by
        rw [← hfirst, bind_map_left]
      _ = _ := bind_congr fun first => ih hrest hrest' first.context

/-! ## Operations on one value -/

/-- An operation that is no source leaves of one value its stream. -/
theorem stream_eq_result_of_not_isSource {op : Op} (hsource : op.isSource = false)
    (hbounded : op.isUnboundedSlice = false) (value : Value) :
    op.stream value = Evaluation.context <$> result [op] [value] := by
  rw [map_context_result_of_not_isSource hsource hbounded]
  cases h : op.stream value with
  | none => simp [h]
  | some values => simp [h]

/-- An array constructor leaves its stream, if the programs of its elements do. -/
theorem stream_createArray_eq_result {elements : List Program} {value : Value}
    (hparts : ∀ part ∈ elements, stream part value = outputs <$> result part [value]) :
    (Op.createArray elements).stream value =
      Evaluation.context <$> result [.createArray elements] [value] := by
  have hstreams : elements.mapM (fun part => stream part value) =
      List.map outputs <$> elements.mapM fun part => result part [value] := by
    rw [Traverse.mapM_congr hparts, Traverse.mapM_map]
  rw [stream_createArray, hstreams, result_createArray, Functor.map_map, Functor.map_map]
  rfl

/-- An object constructor leaves its stream, if the programs of its entries do. -/
theorem stream_createObject_eq_result {entries : List (String × Program)} {value : Value}
    (hparts : ∀ entry ∈ entries, stream entry.2 value = outputs <$> result entry.2 [value]) :
    (Op.createObject entries).stream value =
      Evaluation.context <$> result [.createObject entries] [value] := by
  have hentry : ∀ entry ∈ entries, (entry.1, ·) <$> stream entry.2 value =
      (fun part : String × Evaluation => (part.1, part.2.outputs)) <$>
        (entry.1, ·) <$> result entry.2 [value] := by
    intro entry hmem
    rw [hparts entry hmem, Functor.map_map, Functor.map_map]
  have hstreams : entries.mapM (fun entry => (entry.1, ·) <$> stream entry.2 value) =
      List.map (fun part : String × Evaluation => (part.1, part.2.outputs)) <$>
        entries.mapM fun entry => (entry.1, ·) <$> result entry.2 [value] := by
    rw [Traverse.mapM_congr hentry, Traverse.mapM_map]
  rw [stream_createObject, hstreams, result_createObject, Functor.map_map, Functor.map_map]
  exact congrArg (· <$> _) (funext streamOfObjects_outputs)

/-- A pipe leaves its stream, if its source and its target do. -/
theorem stream_pipe_eq_result {source target : Program} {value : Value}
    (hsource : stream source value = outputs <$> result source [value])
    (htarget : ∀ value, stream target value = outputs <$> result target [value]) :
    (Op.pipe source target).stream value =
      Evaluation.context <$> result [.pipe source target] [value] := by
  have hstream : ∀ value, stream target value = Evaluation.context <$> result target [value] := by
    intro value
    rw [htarget, map_outputs_result]
  rw [stream_pipe, result_pipe, hsource, bind_map_left, map_bind]
  refine bind_congr fun before => ?_
  rw [funext hstream, Traverse.mapM_map, Functor.map_map, Functor.map_map]
  rfl

/-- An operation leaves of one value its stream, if the programs inside it do. -/
theorem stream_eq_result_of_parts {op : Op} (hbounded : op.isUnboundedSlice = false)
    (hparts : ∀ part ∈ op.parts, ∀ value, stream part value = outputs <$> result part [value])
    (value : Value) : op.stream value = Evaluation.context <$> result [op] [value] := by
  cases op with
  | literal constant => rw [result_singleton]; rfl
  | createArray elements =>
    exact stream_createArray_eq_result fun part hpart => hparts part hpart value
  | createObject entries =>
    exact stream_createObject_eq_result fun entry hentry =>
      hparts entry.2 (Op.mem_parts_createObject hentry) value
  | pipe source target =>
    exact stream_pipe_eq_result (hparts source (by simp) value) (hparts target (by simp))
  | _ => exact stream_eq_result_of_not_isSource rfl hbounded value

/-! ## Programs on one value -/

/-- What a program of the shape of streams leaves of one value is its stream. -/
theorem stream_eq_result (program : Program) :
    program.StreamShaped → ∀ value, program.stream value = outputs <$> program.result [value] := by
  refine Program.induction
    (P := fun op => (∀ part ∈ op.parts, StreamShaped part) → op.isUnboundedSlice = false →
      ∀ value, op.stream value = Evaluation.context <$> result [op] [value])
    (Q := fun program => program.StreamShaped →
      ∀ value, program.stream value = outputs <$> program.result [value])
    ?_ ?_ program
  · intro op hparts hshape hbounded value
    exact stream_eq_result_of_parts hbounded
      (fun part hpart => hparts part hpart (hshape part hpart)) value
  · intro program hops hshape value
    rw [map_outputs_result]
    obtain ⟨hsource, hbounded⟩ := hshape.here
    cases program with
    | nil => rfl
    | cons op rest =>
      have hop := hops op List.mem_cons_self
        (fun part hpart => hshape.inside List.mem_cons_self hpart)
        (hbounded op List.mem_cons_self) value
      have hrest : ∀ context, Op.streamOps rest context = Evaluation.context <$> result rest context :=
        streamOps_eq_result hsource fun op hmem => hbounded op (List.mem_cons_of_mem _ hmem)
      rw [stream_cons, hop, result_cons op rest, bind_map_left, map_bind]
      refine bind_congr fun first => ?_
      rw [hrest, Functor.map_map]
      rfl

/-! ## Evaluations -/

/-- On one value and under a sufficient limit, the evaluation of a program of the shape of streams
succeeds exactly if the program has a stream, and what it leaves, which is also what an enclosing operation
takes from it, is this stream. -/
theorem evaluate_iff_stream (program : Program) (hshape : program.StreamShaped) (value : Value)
    (options : Options) (hdepth : program.nesting ≤ options.maxDepth) :
    (∀ values, program.stream value = some values ↔
      ∃ evaluation, program.evaluate [value] options = .ok evaluation ∧
        evaluation.context = values) ∧
    ∀ evaluation, program.evaluate [value] options = .ok evaluation →
      evaluation.outputs = evaluation.context := by
  have hmeaning := evaluate_eq_meaning hdepth [value]
  constructor
  · intro values
    rw [stream_eq_result program hshape, map_outputs_result, hmeaning]
    exact Option.map_eq_some_iff.trans
      (exists_congr fun evaluation => and_congr_left fun _ => result_eq_some_iff)
  · intro evaluation h
    rw [hmeaning] at h
    exact outputs_of_result (result_eq_some_iff.mpr h)

/-- The objects of the members of an array, one for each choice, and what they hold. -/
theorem evaluate_iff_stream_explode_object :
    stream [.pipe [.explode true] [.createObject [("a", [.explode true]), ("b", [])]],
        .pick "a" true] (.array [.array [.null, .bool true]]) = some [.null, .bool true] ∧
    ∃ evaluation,
      evaluate [.pipe [.explode true] [.createObject [("a", [.explode true]), ("b", [])]],
        .pick "a" true] [.array [.array [.null, .bool true]]] {} = .ok evaluation ∧
      evaluation.context = [.null, .bool true] := by
  have hempty : StreamShaped [] := .intro (by simp) (by simp)
  have hexplode : StreamShaped [.explode true] :=
    .intro (by simp [Op.isUnboundedSlice]) (by simp [Op.parts])
  have hobject : StreamShaped [.createObject [("a", [.explode true]), ("b", [])]] :=
    .intro (by simp [Op.isUnboundedSlice]) (by simpa using ⟨hexplode, hempty⟩)
  have hshape : StreamShaped [.pipe [.explode true]
      [.createObject [("a", [.explode true]), ("b", [])]], .pick "a" true] :=
    .intro (by simp [Op.isSource, Op.isUnboundedSlice])
      (by simpa [Op.parts] using ⟨hexplode, hobject⟩)
  obtain ⟨succeeds, -⟩ :=
    evaluate_iff_stream _ hshape (.array [.array [.null, .bool true]]) {} (by decide)
  exact ⟨rfl, (succeeds _).mp rfl⟩

end Program

end JsonFilter
