import JsonFilter.Proofs.Evaluation.Arity

/-!
# The laws of pipes

Pipes may be grouped either way, and a pipe from or to the program that passes its context on changes
nothing on a single value.

The outputs of a pipe are taken once from the joined branches in one grouping, and branch by branch in the
other.  Both take the values as they are, because a branch without an explosion leaves at most one value.

* `Evaluation.beside`, `Evaluation.fanOut`: evaluations side by side, and the branches of a pipe;
* `Evaluation.Distributes`: runs that treat the values of their context one by one;
* `Evaluation.fanOut_assoc`: fanning out twice, over all branches or in each of them;
* `Program.pipe_laws`: grouping and neutral programs.
-/

namespace JsonFilter

namespace Evaluation

/-! ## Branches -/

/-- Two evaluations side by side: the values of both in order. -/
def beside (left right : Evaluation) : Evaluation :=
  ⟨left.context ++ right.context, left.exploded || right.exploded⟩

/-- All branches side by side. -/
def merge (branches : List Evaluation) : Evaluation :=
  ⟨branches.flatMap Evaluation.context, branches.any exploded⟩

/-- The branches that start at some values, side by side. -/
def fanOut (branch : Value → Option Evaluation) (values : List Value) : Option Evaluation :=
  merge <$> values.mapM branch

variable {branch inner outer : Value → Option Evaluation}

theorem beside_assoc (first second third : Evaluation) :
    (first.beside second).beside third = first.beside (second.beside third) := by
  unfold beside
  rw [List.append_assoc, Bool.or_assoc]

/-- Side by side, the order of what follows does not matter to what has exploded. -/
theorem beside_andThen_beside (left right left' right' : Evaluation) :
    (left.beside right).andThen (left'.beside right') =
      (left.andThen left').beside (right.andThen right') := by
  unfold beside andThen
  simp only [Bool.or_assoc, Bool.or_left_comm]

theorem fanOut_nil (branch : Value → Option Evaluation) : fanOut branch [] = some (quiet []) := rfl

theorem fanOut_cons (branch : Value → Option Evaluation) (value : Value) (rest : List Value) :
    fanOut branch (value :: rest) =
      branch value >>= fun first => first.beside <$> fanOut branch rest := by
  unfold fanOut
  simp only [List.mapM_cons, map_bind, map_pure, Functor.map_map]
  refine bind_congr fun first => ?_
  rw [map_eq_pure_bind]
  rfl

theorem fanOut_append (branch : Value → Option Evaluation) (left right : List Value) :
    fanOut branch (left ++ right) =
      fanOut branch left >>= fun first => first.beside <$> fanOut branch right := by
  induction left with
  | nil =>
    rw [List.nil_append, fanOut_nil]
    exact (id_map _).symm
  | cons value rest ih =>
    rw [List.cons_append, fanOut_cons, fanOut_cons, ih]
    simp only [bind_assoc, map_bind, bind_map_left, Functor.map_map]
    refine bind_congr fun first => bind_congr fun second => ?_
    have hbeside : (fun third => first.beside (second.beside third)) =
        (first.beside second).beside := by
      funext third
      exact (beside_assoc first second third).symm
    rw [hbeside]

theorem beside_quiet_nil (evaluation : Evaluation) : evaluation.beside (quiet []) = evaluation := by
  unfold beside quiet
  rw [List.append_nil, Bool.or_false]

theorem fanOut_singleton (branch : Value → Option Evaluation) (value : Value) :
    fanOut branch [value] = branch value := by
  rw [fanOut_cons, fanOut_nil]
  simp [beside_quiet_nil]

/-! ## Contexts one after the other -/

/-- A run on two contexts one after the other is the run on the first beside the run on the second. -/
def Distributes (run : Context → Option Evaluation) : Prop :=
  ∀ left right, run (left ++ right) = run left >>= fun first => first.beside <$> run right

/-- If two runs distribute, then so does the one that goes on from the values of the other. -/
theorem Distributes.andThen {run next : Context → Option Evaluation} (hrun : Distributes run)
    (hnext : Distributes next) :
    Distributes fun context => run context >>= fun before => before.andThen <$> next before.context := by
  intro left right
  dsimp only
  rw [hrun left right]
  -- What follows the left context runs before the right one on one side of the equation, and after it on
  -- the other; a failure in either place fails both sides.
  cases run left with
  | none => rfl
  | some first =>
    cases run right with
    | none => cases hfirst : next first.context <;> simp [hfirst]
    | some second =>
      have happend : next (first.beside second).context = _ := hnext first.context second.context
      simp only [Option.bind_eq_bind, Option.map_eq_map, Option.bind_some, Option.map_some, happend]
      cases next first.context with
      | none => rfl
      | some follow =>
        cases next second.context with
        | none => rfl
        | some last => exact congrArg some (beside_andThen_beside first second follow last)

/-- A run that distributes runs on each value by itself. -/
theorem Distributes.eq_fanOut {run : Context → Option Evaluation} (h : Distributes run)
    {context : Context} (hcontext : context ≠ []) :
    run context = fanOut (fun value => run [value]) context := by
  induction context with
  | nil => exact absurd rfl hcontext
  | cons value rest ih =>
    cases rest with
    | nil => rw [fanOut_singleton]
    | cons second others =>
      have hrest := ih (List.cons_ne_nil second others)
      rw [fanOut_cons, ← hrest]
      exact h [value] (second :: others)

/-- Fanning out from all values that the branches leave is fanning out in each branch. -/
theorem fanOut_assoc (inner outer : Value → Option Evaluation) (values : List Value) :
    (fanOut inner values >>= fun joined => joined.andThen <$> fanOut outer joined.context) =
      fanOut (fun value => inner value >>= fun first =>
        first.andThen <$> fanOut outer first.context) values := by
  cases values with
  | nil => rfl
  | cons value rest =>
    have hinner : Distributes (fanOut inner) := fanOut_append inner
    have houter : Distributes (fanOut outer) := fanOut_append outer
    rw [(hinner.andThen houter).eq_fanOut (List.cons_ne_nil value rest)]
    simp only [fanOut_singleton]

/-! ## Outputs of pipes -/

/-- The outputs of a pipe are the values of its branches. -/
theorem outputs_andThen_of_fanOut {target : Program} {before joined : Evaluation}
    (h : fanOut (fun value => target.result [value]) before.outputs = some joined) :
    (before.andThen joined).outputs = joined.context := by
  unfold fanOut Program.result at h
  obtain ⟨branches, hbranches, rfl⟩ := Option.map_eq_some_iff.mp h
  rw [← Traverse.toOption_mapM, Traverse.toOption_eq_some_iff] at hbranches
  have hkeeps : KeepsArity [] (before.join branches) :=
    keepsArity_join hbranches (fun _ _ hbranch => keepsArity_meaning target hbranch) []
  exact hkeeps.outputs_eq (Nat.zero_le 1)

end Evaluation

namespace Program

open Evaluation

/-! ## Grouping -/

/-- A pipe fans out from the outputs of its source. -/
theorem result_pipe_eq_fanOut (source target : Program) (context : Context) :
    result [.pipe source target] context =
      result source context >>= fun before =>
        before.andThen <$> fanOut (fun value => result target [value]) before.outputs := by
  rw [result_pipe]
  simp only [fanOut, Functor.map_map]
  rfl

/-- On one value, a pipe fans out from the values that its source leaves. -/
theorem result_pipe_singleton (source target : Program) (value : Value) :
    result [.pipe source target] [value] =
      result source [value] >>= fun before =>
        before.andThen <$> fanOut (fun value => result target [value]) before.context := by
  rw [result_pipe_eq_fanOut]
  refine Option.bind_congr fun before hbefore => ?_
  rw [outputs_of_result hbefore]

/-- Pipes may be grouped either way. -/
theorem result_pipe_assoc (first second third : Program) (context : Context) :
    result [.pipe [.pipe first second] third] context =
      result [.pipe first [.pipe second third]] context := by
  have hinner : (fun value => result [.pipe second third] [value]) = fun value =>
      result second [value] >>= fun before =>
        before.andThen <$> fanOut (fun value => result third [value]) before.context :=
    funext fun value => result_pipe_singleton second third value
  rw [result_pipe_eq_fanOut, result_pipe_eq_fanOut, result_pipe_eq_fanOut, bind_assoc, hinner]
  refine bind_congr fun before => ?_
  rw [← fanOut_assoc, bind_map_left, map_bind]
  refine Option.bind_congr fun joined hjoined => ?_
  have hassoc : (before.andThen joined).andThen =
      fun last => before.andThen (joined.andThen last) := by
    funext last
    exact andThen_assoc before joined last
  rw [outputs_andThen_of_fanOut hjoined, Functor.map_map, hassoc]

/-! ## Neutral programs -/

/-- The program that passes its context on is neutral on the left of a pipe. -/
theorem meaning_pipe_currentContext_left (program : Program) (value : Value) :
    meaning [.pipe [.currentContext] program] [value] = program.meaning [value] := by
  rw [meaning_singleton, step, meaning_singleton]
  show (quiet [value]).join <$> List.mapM (fun value => program.meaning [value]) [value] = _
  rw [List.mapM_cons, List.mapM_nil]
  cases program.meaning [value] with
  | error e => rfl
  | ok evaluation =>
    obtain ⟨values, exploded⟩ := evaluation
    show Except.ok (Evaluation.mk (values ++ []) (false || (exploded || false))) = _
    rw [List.append_nil, Bool.or_false, Bool.false_or]

theorem mapM_meaning_currentContext (values : List Value) :
    values.mapM (fun value => meaning [.currentContext] [value]) =
      .ok (values.map fun value => quiet [value]) := by
  simp only [meaning_singleton, step]
  exact List.mapM_pure

/-- The program that passes its context on is neutral on the right of a pipe. -/
theorem meaning_pipe_currentContext_right (program : Program) (value : Value) :
    meaning [.pipe program [.currentContext]] [value] = program.meaning [value] := by
  rw [meaning_singleton, step]
  simp only [mapM_meaning_currentContext]
  cases h : program.meaning [value] with
  | error e => rfl
  | ok evaluation =>
    have houtputs := outputs_of_meaning (Nat.le_of_eq List.length_singleton) h
    show Except.ok (evaluation.join (evaluation.outputs.map fun value => quiet [value])) = _
    rw [houtputs]
    have hquiet : (evaluation.context.map fun value => quiet [value]).any exploded = false := by
      simp [quiet]
    rw [join, List.flatMap_map, hquiet, Bool.or_false]
    exact congrArg Except.ok (congrArg (Evaluation.mk · _) (List.flatMap_singleton' _))

/-! ## Evaluations -/

/-- Pipes may be grouped either way, and on one value the program that passes its context on changes
nothing on either side of a pipe, the failures included. -/
theorem pipe_laws (first second third : Program) (context : Context) (value : Value)
    (options : Options) :
    (nesting [.pipe [.pipe first second] third] ≤ options.maxDepth →
      nesting [.pipe first [.pipe second third]] ≤ options.maxDepth →
      ∀ evaluation,
        evaluate [.pipe [.pipe first second] third] context options = .ok evaluation ↔
          evaluate [.pipe first [.pipe second third]] context options = .ok evaluation) ∧
    (first.nesting + 1 ≤ options.maxDepth →
      evaluate [.pipe [.currentContext] first] [value] options = first.evaluate [value] options ∧
      evaluate [.pipe first [.currentContext]] [value] options = first.evaluate [value] options) := by
  constructor
  · intro hleft hright evaluation
    rw [evaluate_eq_meaning hleft, evaluate_eq_meaning hright, ← result_eq_some_iff,
      ← result_eq_some_iff, result_pipe_assoc]
  · intro hnesting
    have hcurrent : nesting [.currentContext] = 0 := rfl
    have hleft : nesting [.pipe [.currentContext] first] ≤ options.maxDepth := by
      simp [nesting_le_iff, Op.nesting_le_iff, hcurrent]
      omega
    have hright : nesting [.pipe first [.currentContext]] ≤ options.maxDepth := by
      simp [nesting_le_iff, Op.nesting_le_iff, hcurrent]
      omega
    rw [evaluate_eq_meaning hleft, evaluate_eq_meaning hright, evaluate_eq_meaning (by omega),
      meaning_pipe_currentContext_left, meaning_pipe_currentContext_right]
    exact ⟨rfl, rfl⟩

/-- Members that are gathered one by one, and an explosion that fails. -/
theorem pipe_laws_explode :
    evaluate [.pipe [.pipe [.explode true] [.createArray [[]]]] [.index 0 true]]
      [.array [.null, .bool true]] {} = .ok ⟨[.null, .bool true], true⟩ ∧
    evaluate [.pipe [.explode true] [.pipe [.createArray [[]]] [.index 0 true]]]
      [.array [.null, .bool true]] {} = .ok ⟨[.null, .bool true], true⟩ ∧
    evaluate [.pipe [.explode true] [.currentContext]] [.null] {} =
      evaluate [.explode true] [.null] {} := by
  obtain ⟨grouping, neutral⟩ := pipe_laws [.explode true] [.createArray [[]]] [.index 0 true]
    [.array [.null, .bool true]] .null {}
  have hright := (grouping (by decide) (by decide) _).mp rfl
  exact ⟨rfl, hright, (neutral (by decide)).2⟩

end Program

end JsonFilter
