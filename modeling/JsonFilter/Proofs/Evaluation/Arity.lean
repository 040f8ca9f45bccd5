import JsonFilter.Proofs.Evaluation.Meaning
import JsonFilter.Proofs.Fields

/-!
# How many values an evaluation leaves

Without an explosion the number of values does not grow: an evaluation leaves at most one value, or at
most as many as it was given.  So no array is made up where an enclosing operation takes the outputs of a
program that ran on one value.

* `Evaluation.KeepsArity`: the bound for one evaluation;
* `Evaluation.keepsArity_step`, `Evaluation.keepsArity_steps`: operations and programs keep to it, if the
  programs inside them do;
* `Program.arity_of_evaluate`: every evaluation keeps to it.
-/

namespace JsonFilter

namespace Evaluation

/-! ## The bound and the ways of combining evaluations -/

/-- Without an explosion there is at most one value, or at most as many as there were before. -/
def KeepsArity (before : Context) (evaluation : Evaluation) : Prop :=
  evaluation.exploded = false → evaluation.context.length ≤ max 1 before.length

theorem length_collapse_toList_le (context : Context) : context.collapse.toList.length ≤ 1 := by
  cases context.collapse <;> simp

/-- Without an explosion there is at most one output. -/
theorem length_outputs_le {evaluation : Evaluation} (h : evaluation.exploded = false) :
    evaluation.outputs.length ≤ 1 := by
  rw [outputs, h, if_neg Bool.false_ne_true]
  exact length_collapse_toList_le evaluation.context

theorem outputs_of_exploded {evaluation : Evaluation} (h : evaluation.exploded = true) :
    evaluation.outputs = evaluation.context := by
  rw [outputs, h, if_pos rfl]

/-- A context of at most one value is its own list of outputs. -/
theorem collapse_toList_of_length_le {context : Context} (h : context.length ≤ 1) :
    context.collapse.toList = context := by
  match context, h with
  | [], _ => rfl
  | [_], _ => rfl

/-- The outputs are the values themselves, except where several values are gathered. -/
theorem outputs_eq_context {evaluation : Evaluation}
    (h : evaluation.exploded = false → evaluation.context.length ≤ 1) :
    evaluation.outputs = evaluation.context := by
  cases hexploded : evaluation.exploded with
  | true => exact outputs_of_exploded hexploded
  | false =>
    rw [outputs, hexploded, if_neg Bool.false_ne_true]
    exact collapse_toList_of_length_le (h hexploded)

/-- What a program leaves of at most one value is what an enclosing operation takes from it. -/
theorem KeepsArity.outputs_eq {before : Context} {evaluation : Evaluation}
    (h : KeepsArity before evaluation) (hbefore : before.length ≤ 1) :
    evaluation.outputs = evaluation.context := by
  apply outputs_eq_context
  intro hexploded
  have hlength := h hexploded
  omega

theorem keepsArity_of_exploded {before : Context} {evaluation : Evaluation}
    (h : evaluation.exploded = true) : KeepsArity before evaluation := by
  intro hexploded
  rw [h] at hexploded
  cases hexploded

theorem KeepsArity.andThen {before : Context} {first last : Evaluation}
    (hfirst : KeepsArity before first) (hlast : KeepsArity first.context last) :
    KeepsArity before (first.andThen last) := by
  intro hexploded
  obtain ⟨h1, h2⟩ := Bool.or_eq_false_iff.mp hexploded
  have hlength1 := hfirst h1
  have hlength2 := hlast h2
  show last.context.length ≤ max 1 before.length
  omega

/-- An array is one value. -/
theorem keepsArity_gather (before : Context) (parts : List Evaluation) :
    KeepsArity before (gather parts) :=
  fun _ => Nat.le_max_left 1 before.length

/-- The objects of an object constructor are the choices of one candidate for each name. -/
theorem combinations_eq_choices (fields : Fields (List Value)) :
    combinations fields = Fields.choices fields := by
  induction fields with
  | nil => rfl
  | cons field rest ih =>
    obtain ⟨key, values⟩ := field
    rw [combinations_cons, Fields.choices_cons, ih]

/-- If each name has at most one candidate, there is at most one choice. -/
theorem length_choices_le {fields : Fields (List Value)}
    (h : ∀ field ∈ fields, field.2.length ≤ 1) : (Fields.choices fields).length ≤ 1 := by
  rw [Fields.length_choices]
  induction fields with
  | nil => exact Nat.le_refl 1
  | cons field rest ih =>
    obtain ⟨hfield, hrest⟩ := List.forall_mem_cons.mp h
    rw [List.map_cons, List.prod_cons]
    exact Nat.mul_le_mul hfield (ih hrest)

theorem keepsArity_assemble (before : Context) (parts : Fields Evaluation) :
    KeepsArity before (assemble parts) := by
  intro hexploded
  have hparts : ∀ part ∈ parts, part.2.exploded = false := by
    intro part hpart
    exact Bool.eq_false_iff.mpr (List.any_eq_false.mp hexploded part hpart)
  have hcandidates : ∀ field ∈ candidates parts, field.2.length ≤ 1 := by
    refine Fields.forall_mem_ofList (P := fun values : List Value => values.length ≤ 1)
      fun field hfield => ?_
    obtain ⟨part, hpart, rfl⟩ := List.mem_map.mp hfield
    exact length_outputs_le (hparts part hpart)
  have hlength := length_choices_le hcandidates
  show ((combinations (candidates parts)).map Value.object).length ≤ max 1 before.length
  rw [List.length_map, combinations_eq_choices]
  omega

/-- Without an explosion a pipe has at most one branch, which runs on one value. -/
theorem keepsArity_join {run : Value → Except EvalError Evaluation} {before : Evaluation}
    {branches : List Evaluation} (hbranches : before.outputs.mapM run = .ok branches)
    (hrun : ∀ value branch, run value = .ok branch → KeepsArity [value] branch)
    (context : Context) : KeepsArity context (before.join branches) := by
  intro hexploded
  obtain ⟨hbefore, hany⟩ := Bool.or_eq_false_iff.mp hexploded
  have hle := length_outputs_le hbefore
  have hlength : before.outputs.length = branches.length :=
    (Traverse.mapM_eq_ok_iff.mp hbranches).length_eq
  have hbranch_length : ∀ branch ∈ branches, branch.context.length ≤ 1 := by
    intro branch hbranch
    obtain ⟨value, -, hvalue⟩ := Traverse.exists_of_mem_mapM hbranches hbranch
    have hquiet := Bool.eq_false_iff.mpr (List.any_eq_false.mp hany branch hbranch)
    exact hrun value branch hvalue hquiet
  show (branches.flatMap Evaluation.context).length ≤ max 1 context.length
  rcases branches with _ | ⟨branch, _ | ⟨_, _⟩⟩
  · exact Nat.zero_le _
  · have hone := hbranch_length branch List.mem_cons_self
    rw [List.flatMap_singleton]
    omega
  · simp only [List.length_cons] at hlength
    omega

/-! ## Accesses -/

/-- An access that gives one value does not give more values than it is given. -/
theorem length_accessEach_single_le {access : Access} {strict : Bool}
    {apply : Value → Option Value} {context values : Context}
    (h : accessEach access strict (single apply) context = .ok values) :
    values.length ≤ context.length := by
  obtain ⟨-, rfl⟩ := accessEach_eq_ok_iff.mp h
  rw [flatten_filterMap_single]
  exact List.length_filterMap_le apply context

theorem keepsArity_accessEach_single {access : Access} {strict : Bool}
    {apply : Value → Option Value} {context : Context} {evaluation : Evaluation}
    (h : quiet <$> accessEach access strict (single apply) context = .ok evaluation) :
    KeepsArity context evaluation := by
  obtain ⟨values, hvalues, rfl⟩ := Traverse.map_eq_ok_iff.mp h
  intro _
  have hlength := length_accessEach_single_le hvalues
  show values.length ≤ max 1 context.length
  omega

/-! ## Operations and programs -/

/-- An operation keeps to the bound if the programs inside it do. -/
theorem keepsArity_step {inner : Runner} {op : Op}
    (hinner : ∀ part ∈ op.parts, ∀ context evaluation,
      inner part context = .ok evaluation → KeepsArity context evaluation)
    {context : Context} {evaluation : Evaluation} (h : step inner op context = .ok evaluation) :
    KeepsArity context evaluation := by
  cases op with
  | currentContext =>
    obtain rfl := Except.ok.inj h
    exact fun _ => Nat.le_max_right 1 context.length
  | literal value =>
    obtain rfl := Except.ok.inj h
    exact fun _ => Nat.le_max_left 1 context.length
  | pick key strict => exact keepsArity_accessEach_single h
  | index position strict => exact keepsArity_accessEach_single h
  | slice start stop strict =>
    rw [step] at h
    split at h
    · cases h
    · exact keepsArity_accessEach_single h
  | explode strict =>
    obtain ⟨values, -, rfl⟩ := Traverse.map_eq_ok_iff.mp h
    exact keepsArity_of_exploded rfl
  | createArray elements =>
    obtain ⟨parts, -, rfl⟩ := Traverse.map_eq_ok_iff.mp h
    exact keepsArity_gather context parts
  | createObject entries =>
    obtain ⟨parts, -, rfl⟩ := Traverse.map_eq_ok_iff.mp h
    exact keepsArity_assemble context parts
  | pipe source target =>
    obtain ⟨before, -, h⟩ := Traverse.bind_eq_ok_iff.mp h
    obtain ⟨branches, hbranches, rfl⟩ := Traverse.map_eq_ok_iff.mp h
    refine keepsArity_join hbranches ?_ context
    intro value branch hbranch
    exact hinner target (by simp) [value] branch hbranch

/-- A program keeps to the bound if its operations do. -/
theorem keepsArity_steps {inner : Runner} {program : Program}
    (hops : ∀ op ∈ program, ∀ context evaluation,
      step inner op context = .ok evaluation → KeepsArity context evaluation)
    {context : Context} {evaluation : Evaluation}
    (h : steps inner program context = .ok evaluation) : KeepsArity context evaluation := by
  induction program generalizing context evaluation with
  | nil =>
    obtain rfl := Except.ok.inj h
    exact fun _ => Nat.le_max_right 1 context.length
  | cons op rest ih =>
    obtain ⟨hop, hrest⟩ := List.forall_mem_cons.mp hops
    obtain ⟨first, hfirst, h⟩ := Traverse.bind_eq_ok_iff.mp h
    obtain ⟨last, hlast, rfl⟩ := Traverse.map_eq_ok_iff.mp h
    exact (hop context first hfirst).andThen (ih hrest hlast)

/-- What a program means keeps to the bound. -/
theorem keepsArity_meaning (program : Program) : ∀ {context : Context} {evaluation : Evaluation},
    program.meaning context = .ok evaluation → KeepsArity context evaluation := by
  refine Program.induction
    (P := fun op => ∀ context evaluation,
      step Program.meaning op context = .ok evaluation → KeepsArity context evaluation)
    (Q := fun program => ∀ {context evaluation},
      program.meaning context = .ok evaluation → KeepsArity context evaluation)
    ?_ ?_ program
  · intro op hparts context evaluation h
    exact keepsArity_step (fun part hpart context evaluation => hparts part hpart) h
  · intro program hops context evaluation h
    rw [Program.meaning_eq_steps] at h
    exact keepsArity_steps hops h

/-- On at most one value, the outputs of a program are the values that it leaves. -/
theorem outputs_of_meaning {program : Program} {context : Context} {evaluation : Evaluation}
    (hcontext : context.length ≤ 1) (h : program.meaning context = .ok evaluation) :
    evaluation.outputs = evaluation.context :=
  (keepsArity_meaning program h).outputs_eq hcontext

/-- On one value, the outputs of a program are the values that it leaves. -/
theorem outputs_of_result {program : Program} {value : Value} {evaluation : Evaluation}
    (h : program.result [value] = some evaluation) : evaluation.outputs = evaluation.context :=
  outputs_of_meaning (Nat.le_of_eq List.length_singleton) (Program.result_eq_some_iff.mp h)

end Evaluation

namespace Program

/-! ## Evaluations -/

/-- Without an explosion an evaluation leaves at most one value, or at most as many as it was given.  So
what it leaves of at most one value is what an enclosing operation takes from it, without an array made
up on the way; and if it leaves several values of a single one, then it reports as many. -/
theorem arity_of_evaluate (program : Program) (context : Context) (options : Options)
    (evaluation : Evaluation) (h : program.evaluate context options = .ok evaluation) :
    (evaluation.explosion = none → evaluation.context.length ≤ max 1 context.length) ∧
    (context.length ≤ 1 → evaluation.explosion = none → evaluation.context.length ≤ 1) ∧
    (context.length ≤ 1 → evaluation.outputs = evaluation.context) ∧
    (context.length = 1 → 2 ≤ evaluation.context.length →
      evaluation.explosion = some evaluation.context.length) := by
  have hkeeps := Evaluation.keepsArity_meaning program (meaning_of_evaluate h)
  have hlength : evaluation.explosion = none →
      evaluation.context.length ≤ max 1 context.length := by
    intro hnone
    apply hkeeps
    by_contra hexploded
    simp [Evaluation.explosion, hexploded] at hnone
  refine ⟨hlength, ?_, ?_, ?_⟩
  · intro hcontext hnone
    have := hlength hnone
    omega
  · intro hcontext
    exact hkeeps.outputs_eq hcontext
  · intro hcontext htwo
    rw [Evaluation.explosion, if_pos]
    by_contra hexploded
    have := hkeeps (Bool.eq_false_iff.mpr hexploded)
    omega

/-- An object constructor inside a pipe leaves two objects of one value, and they are reported. -/
theorem arity_of_evaluate_two_objects :
    evaluate [.pipe [.currentContext] [.createObject [("a", [.explode true])]]]
        [.array [.null, .bool true]] {} =
      .ok ⟨[.object [("a", .null)], .object [("a", .bool true)]], true⟩ ∧
    Evaluation.explosion ⟨[.object [("a", .null)], .object [("a", .bool true)]], true⟩ = some 2 ∧
    Evaluation.outputs ⟨[.object [("a", .null)], .object [("a", .bool true)]], true⟩ =
      [.object [("a", .null)], .object [("a", .bool true)]] := by
  obtain ⟨-, -, outputs, two⟩ := arity_of_evaluate
    [.pipe [.currentContext] [.createObject [("a", [.explode true])]]]
    [.array [.null, .bool true]] {}
    ⟨[.object [("a", .null)], .object [("a", .bool true)]], true⟩ rfl
  exact ⟨rfl, two rfl (by decide), outputs (by decide)⟩

end Program

end JsonFilter
