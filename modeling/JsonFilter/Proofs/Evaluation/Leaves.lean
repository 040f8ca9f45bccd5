import JsonFilter.Proofs.Evaluation.Arity
import JsonFilter.Proofs.Program.Data

/-!
# Evaluation does not look at leaves

Other numbers and truth values, in the values of a context and in the literals of a program, change an
evaluation only in these places: it fails in the same way, or leaves the same values with the other leaves.

* `Evaluation.step_mapLeaves`: an operation, if this holds of the programs inside it;
* `Program.evaluate_mapLeaves`: every evaluation;
* `Program.evaluate_leaves`: what follows for equal inputs and for the numbers of the results.
-/

namespace JsonFilter

namespace Evaluation

/-! ## Ways of combining evaluations -/

/-- The evaluation with a function applied to each of its values. -/
def map (m : Value → Value) (evaluation : Evaluation) : Evaluation :=
  ⟨evaluation.context.map m, evaluation.exploded⟩

section Leaves

variable (f : Binary64 → Binary64) (g : Bool → Bool)

theorem collapse_map_mapLeaves (context : Context) :
    Context.collapse (context.map (Value.mapLeaves f g)) =
      context.collapse.map (Value.mapLeaves f g) := by
  match context with
  | [] => rfl
  | [v] => rfl
  | v :: w :: rest => simp [Context.collapse]

theorem outputs_mapLeaves (evaluation : Evaluation) :
    (evaluation.map (Value.mapLeaves f g)).outputs =
      evaluation.outputs.map (Value.mapLeaves f g) := by
  obtain ⟨context, exploded⟩ := evaluation
  cases exploded with
  | true => rfl
  | false =>
    show (Context.collapse (context.map (Value.mapLeaves f g))).toList = _
    rw [collapse_map_mapLeaves, Option.toList_map]
    rfl

theorem gather_mapLeaves (parts : List Evaluation) :
    gather (parts.map (map (Value.mapLeaves f g))) = (gather parts).map (Value.mapLeaves f g) := by
  have houtputs : (parts.map (map (Value.mapLeaves f g))).flatMap outputs =
      (parts.flatMap outputs).map (Value.mapLeaves f g) := by
    rw [List.flatMap_map, List.map_flatMap]
    simp only [outputs_mapLeaves]
  unfold gather
  rw [houtputs, List.any_map]
  simp only [map, List.map_cons, List.map_nil, Value.mapLeaves_array]
  rfl

theorem join_map (m : Value → Value) (before : Evaluation) (branches : List Evaluation) :
    (before.map m).join (branches.map (map m)) = (before.join branches).map m := by
  unfold join
  rw [List.flatMap_map, List.any_map]
  simp only [map, List.map_flatMap]
  rfl

/-- The choices from other candidates are the other choices. -/
theorem combinations_map (m : Value → Value) (fields : Fields (List Value)) :
    combinations (Fields.mapValues (List.map m) fields) =
      (combinations fields).map (Fields.mapValues m) := by
  induction fields with
  | nil => rfl
  | cons field rest ih =>
    obtain ⟨key, values⟩ := field
    rw [Fields.mapValues_cons, combinations_cons, combinations_cons, ih]
    simp only [List.flatMap_map, List.map_flatMap, List.map_map]
    rfl

theorem candidates_mapLeaves (parts : Fields Evaluation) :
    candidates (Fields.mapValues (map (Value.mapLeaves f g)) parts) =
      Fields.mapValues (List.map (Value.mapLeaves f g)) (candidates parts) := by
  unfold candidates
  rw [← Fields.ofList_mapValues, Fields.mapValues_mapValues, Fields.mapValues_mapValues]
  exact congrArg Fields.ofList
    (Fields.mapValues_inj_left.mpr fun part _ => outputs_mapLeaves f g part.2)

theorem assemble_mapLeaves (parts : Fields Evaluation) :
    assemble (Fields.mapValues (map (Value.mapLeaves f g)) parts) =
      (assemble parts).map (Value.mapLeaves f g) := by
  unfold assemble
  rw [candidates_mapLeaves, combinations_map]
  simp only [map, List.map_map, Fields.mapValues, List.any_map]
  refine congrArg (Evaluation.mk · _) (List.map_congr_left fun fields _ => ?_)
  exact (Value.mapLeaves_object f g fields).symm

/-! ## Operations and programs -/

theorem accessEach_mapLeaves {apply : Value → Option (List Value)}
    (happly : ∀ value, apply (value.mapLeaves f g) =
      (apply value).map (List.map (Value.mapLeaves f g)))
    (access : Access) (strict : Bool) (context : Context) :
    accessEach access strict apply (context.map (Value.mapLeaves f g)) =
      List.map (Value.mapLeaves f g) <$> accessEach access strict apply context := by
  induction context with
  | nil => rfl
  | cons operand rest ih =>
    have hone : accessOne access strict apply (operand.mapLeaves f g) =
        List.map (Value.mapLeaves f g) <$> accessOne access strict apply operand := by
      unfold accessOne
      rw [happly, Value.kind_mapLeaves]
      cases apply operand with
      | some values => rfl
      | none => cases strict <;> rfl
    rw [List.map_cons, accessEach_cons, accessEach_cons, hone, ih, bind_map_left, map_bind]
    simp only [Functor.map_map, List.map_append]

/-- An access that gives one value commutes with other leaves if it does so on each value. -/
theorem single_mapLeaves {apply : Value → Option Value}
    (happly : ∀ value, apply (value.mapLeaves f g) = (apply value).map (Value.mapLeaves f g))
    (value : Value) :
    single apply (value.mapLeaves f g) =
      (single apply value).map (List.map (Value.mapLeaves f g)) := by
  unfold single
  rw [happly]
  cases apply value <;> rfl

/-- An access commutes with other leaves, whatever is built from the values that it gives. -/
theorem map_accessEach_mapLeaves {apply : Value → Option (List Value)}
    (happly : ∀ value, apply (value.mapLeaves f g) =
      (apply value).map (List.map (Value.mapLeaves f g)))
    {build : Context → Evaluation}
    (hbuild : ∀ values, build (values.map (Value.mapLeaves f g)) =
      (build values).map (Value.mapLeaves f g))
    (access : Access) (strict : Bool) (context : Context) :
    build <$> accessEach access strict apply (context.map (Value.mapLeaves f g)) =
      map (Value.mapLeaves f g) <$> build <$> accessEach access strict apply context := by
  rw [accessEach_mapLeaves f g happly, Functor.map_map, Functor.map_map]
  simp only [hbuild]

/-- An operation commutes with other leaves if the programs inside it do. -/
theorem step_mapLeaves {inner inner' : Runner} {op : Op}
    (hinner : ∀ part ∈ op.parts, ∀ context,
      inner' (Program.mapData (Value.mapLeaves f g) id part) (context.map (Value.mapLeaves f g)) =
        map (Value.mapLeaves f g) <$> inner part context)
    (context : Context) :
    step inner' (op.mapData (Value.mapLeaves f g) id) (context.map (Value.mapLeaves f g)) =
      map (Value.mapLeaves f g) <$> step inner op context := by
  cases op with
  | currentContext => rw [Op.mapData_currentContext]; rfl
  | literal value => rw [Op.mapData_literal]; rfl
  | pick key strict =>
    rw [Op.mapData_pick]
    exact map_accessEach_mapLeaves f g (single_mapLeaves f g (Value.field?_mapLeaves f g key))
      (fun _ => rfl) _ _ context
  | index position strict =>
    rw [Op.mapData_index]
    exact map_accessEach_mapLeaves f g
      (single_mapLeaves f g (Value.element?_mapLeaves f g position)) (fun _ => rfl) _ _ context
  | slice start stop strict =>
    rw [Op.mapData_slice, step, step]
    split
    · rfl
    · exact map_accessEach_mapLeaves f g
        (single_mapLeaves f g (Value.slice?_mapLeaves f g start stop)) (fun _ => rfl) _ _ context
  | explode strict =>
    rw [Op.mapData_explode]
    exact map_accessEach_mapLeaves f g (Value.members?_mapLeaves f g) (fun _ => rfl) _ _ context
  | createArray elements =>
    have hparts : (elements.map (Program.mapData (Value.mapLeaves f g) id)).mapM
          (fun part => inner' part (context.map (Value.mapLeaves f g))) =
        List.map (map (Value.mapLeaves f g)) <$> elements.mapM fun part => inner part context :=
      Traverse.mapM_map_of_eq fun part hpart => hinner part hpart context
    rw [Op.mapData_createArray, step, step, hparts, Functor.map_map, Functor.map_map]
    exact congrArg (· <$> _) (funext fun parts => gather_mapLeaves f g parts)
  | createObject entries =>
    have hentries : ∀ entry ∈ entries,
        (entry.1, ·) <$> inner' (Program.mapData (Value.mapLeaves f g) id entry.2)
            (context.map (Value.mapLeaves f g)) =
          (fun part : String × Evaluation => (part.1, part.2.map (Value.mapLeaves f g))) <$>
            (entry.1, ·) <$> inner entry.2 context := by
      intro entry hentry
      rw [hinner entry.2 (Op.mem_parts_createObject hentry), Functor.map_map, Functor.map_map]
    rw [Op.mapData_createObject, step, step, Fields.mapValues, Traverse.mapM_map_of_eq hentries,
      Functor.map_map, Functor.map_map]
    exact congrArg (· <$> _) (funext fun parts => assemble_mapLeaves f g parts)
  | pipe source target =>
    have hbranches : ∀ values : List Value,
        (values.map (Value.mapLeaves f g)).mapM
            (fun value => inner' (Program.mapData (Value.mapLeaves f g) id target) [value]) =
          List.map (map (Value.mapLeaves f g)) <$> values.mapM fun value => inner target [value] :=
      fun values => Traverse.mapM_map_of_eq fun value _ => hinner target (by simp) [value]
    rw [Op.mapData_pipe, step, step, hinner source (by simp), bind_map_left, map_bind]
    refine bind_congr fun before => ?_
    rw [outputs_mapLeaves, hbranches, Functor.map_map, Functor.map_map]
    exact congrArg (· <$> _) (funext fun branches => join_map _ before branches)

/-- A program commutes with other leaves if its operations do. -/
theorem steps_mapLeaves {inner inner' : Runner} {program : Program}
    (hops : ∀ op ∈ program, ∀ context,
      step inner' (op.mapData (Value.mapLeaves f g) id) (context.map (Value.mapLeaves f g)) =
        map (Value.mapLeaves f g) <$> step inner op context)
    (context : Context) :
    steps inner' (program.mapData (Value.mapLeaves f g) id)
        (context.map (Value.mapLeaves f g)) =
      map (Value.mapLeaves f g) <$> steps inner program context := by
  induction program generalizing context with
  | nil => rw [Program.mapData_nil]; rfl
  | cons op rest ih =>
    obtain ⟨hop, hrest⟩ := List.forall_mem_cons.mp hops
    rw [Program.mapData_cons, steps, steps, hop, bind_map_left, map_bind]
    refine bind_congr fun first => ?_
    show _ <$> steps inner' _ (first.context.map (Value.mapLeaves f g)) = _
    rw [ih hrest, Functor.map_map, Functor.map_map]
    rfl

/-- A run commutes with other leaves. -/
theorem runAt_mapLeaves (limit : Nat) (program : Program) : ∀ depth context,
    runAt limit depth (program.mapData (Value.mapLeaves f g) id)
        (context.map (Value.mapLeaves f g)) =
      map (Value.mapLeaves f g) <$> runAt limit depth program context := by
  refine Program.induction
    (P := fun op => ∀ depth context,
      step (runAt limit depth) (op.mapData (Value.mapLeaves f g) id)
          (context.map (Value.mapLeaves f g)) =
        map (Value.mapLeaves f g) <$> step (runAt limit depth) op context)
    (Q := fun program => ∀ depth context,
      runAt limit depth (program.mapData (Value.mapLeaves f g) id)
          (context.map (Value.mapLeaves f g)) =
        map (Value.mapLeaves f g) <$> runAt limit depth program context)
    ?_ ?_ program
  · intro op hparts depth context
    exact step_mapLeaves f g (fun part hpart => hparts part hpart depth) context
  · intro program hops depth context
    rw [runAt_eq, runAt_eq]
    split
    · rfl
    · exact steps_mapLeaves f g (fun op hop => hops op hop (depth + 1)) context

end Leaves

end Evaluation

namespace Program

/-! ## Evaluations -/

/-- An evaluation commutes with other leaves. -/
theorem evaluate_mapLeaves (f : Binary64 → Binary64) (g : Bool → Bool) (program : Program)
    (context : Context) (options : Options) :
    (program.mapLeaves f g).evaluate (context.map (Value.mapLeaves f g)) options =
      Evaluation.map (Value.mapLeaves f g) <$> program.evaluate context options := by
  rw [evaluate_eq_runAt, evaluate_eq_runAt]
  exact Evaluation.runAt_mapLeaves f g options.maxDepth program 0 context

/-- The numbers of the results are numbers of the context or of the literals. -/
theorem hasNumber_of_evaluate {program : Program} {context : Context} {options : Options}
    {evaluation : Evaluation} (h : program.evaluate context options = .ok evaluation)
    {x : Binary64} {result : Value} (hresult : result ∈ evaluation.context)
    (hx : result.HasNumber x) : (∃ v ∈ context, v.HasNumber x) ∨ program.HasNumber x := by
  by_contra hnone
  obtain ⟨hcontext, hprogram⟩ := not_or.mp hnone
  -- Were the number new, then another one could be put in its place without a change of the input.
  let f : Binary64 → Binary64 := fun y => if y = x then ⟨!x.negative, x.exponent, x.fraction⟩ else y
  have hkeep : ∀ y, y ≠ x → f y = y := fun y hy => if_neg hy
  have hchange : f x ≠ x := by
    intro heq
    have hnegative : (!x.negative) = x.negative := congrArg Binary64.negative ((if_pos rfl).symm.trans heq)
    cases hsign : x.negative <;> simp [hsign] at hnegative
  have hprogram' : program.mapLeaves f id = program :=
    mapLeaves_eq_self fun y hy => hkeep y fun heq => hprogram (heq ▸ hy)
  have hcontext' : context.map (Value.mapLeaves f id) = context := by
    have hvalues : context.map (Value.mapLeaves f id) = context.map id := by
      apply List.map_congr_left
      intro v hv
      exact Value.mapLeaves_eq_self_iff.mpr fun y hy =>
        hkeep y fun heq => hcontext ⟨v, hv, heq ▸ hy⟩
    rw [hvalues, List.map_id]
  have hsame := evaluate_mapLeaves f id program context options
  rw [hprogram', hcontext', h] at hsame
  have hresults : evaluation.context.map id = evaluation.context.map (Value.mapLeaves f id) :=
    (List.map_id _).trans (congrArg Evaluation.context (Except.ok.inj hsame))
  have hself := List.map_inj_left.mp hresults result hresult
  exact hchange (Value.mapLeaves_eq_self_iff.mp hself.symm x hx)

/-- On equal contexts equal programs fail in the same way or leave equal values. -/
theorem evaluate_of_agrees {program other : Program} {context others : Context}
    (hprogram : program.agrees other = true) (hcontext : context.agrees others = true)
    (options : Options) :
    (∀ e, program.evaluate context options = .error e ↔
      other.evaluate others options = .error e) ∧
    ∀ evaluation, program.evaluate context options = .ok evaluation →
      ∃ evaluation', other.evaluate others options = .ok evaluation' ∧
        evaluation.context.agrees evaluation'.context = true ∧
        evaluation.explosion = evaluation'.explosion := by
  obtain ⟨hfree, hsame⟩ := agrees_iff.mp hprogram
  obtain ⟨hfree', hsame'⟩ := Context.agrees_iff.mp hcontext
  -- Both evaluations become the same one when the signs of zeros are taken away.
  have heq : Evaluation.map Value.unsignZeros <$> program.evaluate context options =
      Evaluation.map Value.unsignZeros <$> other.evaluate others options := by
    have h := evaluate_mapLeaves Binary64.unsignZero id program context options
    have h' := evaluate_mapLeaves Binary64.unsignZero id other others options
    exact h.symm.trans ((congrArg₂ (evaluate · · options) hsame hsame').trans h')
  constructor
  · intro e
    cases hleft : program.evaluate context options <;>
      cases hright : other.evaluate others options <;> simp_all
  · intro evaluation h
    rw [h] at heq
    obtain ⟨evaluation', h', heq⟩ := Traverse.map_eq_ok_iff.mp heq.symm
    obtain ⟨hvalues, hexploded⟩ := Evaluation.mk.inj heq
    refine ⟨evaluation', h', ?_, ?_⟩
    · refine Context.agrees_iff.mpr ⟨fun result hresult x hx => ?_, hvalues.symm⟩
      rcases hasNumber_of_evaluate h hresult hx with ⟨v, hv, hx⟩ | ⟨literal, hliteral, hx⟩
      · exact hfree' v hv x hx
      · exact hfree literal hliteral x hx
    · have hlength := congrArg List.length hvalues
      rw [List.length_map, List.length_map] at hlength
      rw [Evaluation.explosion, Evaluation.explosion, hexploded, hlength]

/-- An evaluation does not look at numbers and truth values: with others in the context and in the
literals of the program it fails in the same way, or leaves the same values with the others in them and
reports the same explosion.  So equal inputs, which differ only in the signs of zeros, give equal results,
and no number of a result is new. -/
theorem evaluate_leaves (program : Program) (context : Context) (options : Options) :
    (∀ f g, (program.mapLeaves f g).evaluate (context.map (Value.mapLeaves f g)) options =
      (fun evaluation => ⟨evaluation.context.map (Value.mapLeaves f g), evaluation.exploded⟩) <$>
        program.evaluate context options) ∧
    (∀ other others, program.agrees other = true → Context.agrees context others = true →
      (∀ e, program.evaluate context options = .error e ↔
        other.evaluate others options = .error e) ∧
      ∀ evaluation, program.evaluate context options = .ok evaluation →
        ∃ evaluation', other.evaluate others options = .ok evaluation' ∧
          evaluation.context.agrees evaluation'.context = true ∧
          evaluation.explosion = evaluation'.explosion) ∧
    ∀ evaluation, program.evaluate context options = .ok evaluation →
      ∀ result ∈ evaluation.context, ∀ x, result.HasNumber x →
        (∃ v ∈ context, v.HasNumber x) ∨ program.HasNumber x := by
  refine ⟨fun f g => evaluate_mapLeaves f g program context options, ?_, ?_⟩
  · intro other others hprogram hcontext
    exact evaluate_of_agrees hprogram hcontext options
  · intro evaluation h result hresult x hx
    exact hasNumber_of_evaluate h hresult hx

/-- A negative zero in place of a zero shows only in the array that holds it. -/
theorem evaluate_leaves_zeros :
    ∃ evaluation,
      Program.evaluate [.createArray [[.literal (.bool true)], [.explode true]]]
          [.array [.number (.zero true)]] {} = .ok evaluation ∧
        Context.agrees [.array [.bool true, .number (.zero false)]] evaluation.context = true ∧
        evaluation.explosion = some 1 := by
  let program : Program := [.createArray [[.literal (.bool true)], [.explode true]]]
  have hprogram : program.agrees program = true := by cbv
  have hinput : Context.agrees [.array [.number (.zero false)]] [.array [.number (.zero true)]] =
      true := by decide
  obtain ⟨-, same⟩ := (evaluate_leaves program [.array [.number (.zero false)]] {}).2.1 _ _ hprogram hinput
  obtain ⟨evaluation, heval, hagrees, hexplosion⟩ :=
    same ⟨[.array [.bool true, .number (.zero false)]], true⟩ rfl
  exact ⟨evaluation, heval, hagrees, hexplosion.symm⟩

end Program

end JsonFilter
