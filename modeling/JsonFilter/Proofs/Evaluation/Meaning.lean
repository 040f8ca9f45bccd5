import JsonFilter.Proofs.Evaluation.DepthLimit

/-!
# What programs mean

The meaning of a program is its outcome when no limit is in the way.  It satisfies the equations of the
steps without a limit or a depth, and every evaluation either has it as its outcome or reports the limit.

* `Program.meaning_eq_steps`: the meaning of a program is given by those of the programs inside it;
* `Evaluation.runAt_eq_meaning`, `Program.evaluate_eq_meaning`: what a sufficient limit gives;
* `Program.meaning_of_evaluate`: what an evaluation leaves, under any limit, is what its program means.
-/

namespace JsonFilter

namespace Evaluation

/-! ## Steps depend on the programs inside -/

theorem step_congr {inner inner' : Runner} {op : Op}
    (h : ∀ part ∈ op.parts, inner part = inner' part) (context : Context) :
    step inner op context = step inner' op context := by
  cases op with
  | createArray elements =>
    rw [step, step]
    exact congrArg _ (Traverse.mapM_congr fun part hpart => by rw [h part hpart])
  | createObject entries =>
    rw [step, step]
    exact congrArg _ (Traverse.mapM_congr fun entry hentry => by
      rw [h entry.2 (Op.mem_parts_createObject hentry)])
  | pipe source target => rw [step, step, h source (by simp), h target (by simp)]
  | _ => rfl

theorem steps_congr {inner inner' : Runner} {program : Program}
    (h : ∀ op ∈ program, ∀ part ∈ op.parts, inner part = inner' part) (context : Context) :
    steps inner program context = steps inner' program context := by
  induction program generalizing context with
  | nil => rfl
  | cons op rest ih =>
    obtain ⟨hop, hrest⟩ := List.forall_mem_cons.mp h
    rw [steps, steps, step_congr hop]
    exact bind_congr fun first => congrArg _ (ih hrest first.context)

/-- Runs that the limit does not touch agree, at whatever depth they are. -/
theorem runAt_eq_runAt (program : Program) : ∀ {limit depth limit' depth' : Nat},
    depth + program.nesting ≤ limit → depth' + program.nesting ≤ limit' →
      runAt limit depth program = runAt limit' depth' program := by
  refine Program.induction
    (P := fun op => ∀ {limit depth limit' depth' : Nat},
      depth + op.nesting ≤ limit → depth' + op.nesting ≤ limit' →
        ∀ part ∈ op.parts, runAt limit (depth + 1) part = runAt limit' (depth' + 1) part)
    (Q := fun program => ∀ {limit depth limit' depth' : Nat},
      depth + program.nesting ≤ limit → depth' + program.nesting ≤ limit' →
        runAt limit depth program = runAt limit' depth' program)
    ?_ ?_ program
  · intro op hparts limit depth limit' depth' h h' part hpart
    have hlt := Op.nesting_part_lt hpart
    exact hparts part hpart (by omega) (by omega)
  · intro program hops limit depth limit' depth' h h'
    funext context
    rw [runAt_eq, runAt_eq, if_neg (by omega), if_neg (by omega)]
    apply steps_congr
    intro op hop
    have hle := Program.nesting_op_le hop
    exact hops op hop (by omega) (by omega)

end Evaluation

namespace Program

/-! ## Meanings -/

/-- The outcome of a program on a context when no limit is in the way. -/
def meaning (program : Program) (context : Context) : Except EvalError Evaluation :=
  Evaluation.runAt program.nesting 0 program context

end Program

namespace Evaluation

/-- A run that the limit does not touch gives the meaning of its program. -/
theorem runAt_eq_meaning {limit depth : Nat} {program : Program}
    (h : depth + program.nesting ≤ limit) : runAt limit depth program = program.meaning :=
  runAt_eq_runAt program h (Nat.le_of_eq (Nat.zero_add _))

end Evaluation

namespace Program

open Evaluation

/-- The meaning of a program is given by its steps, with the programs inside taken as what they mean. -/
theorem meaning_eq_steps (program : Program) (context : Context) :
    program.meaning context = steps meaning program context := by
  rw [meaning, runAt_eq, if_neg (Nat.not_lt_zero _)]
  apply steps_congr
  intro op hop part hpart
  have hlt := Nat.lt_of_lt_of_le (Op.nesting_part_lt hpart) (nesting_op_le hop)
  exact runAt_eq_meaning (by omega)

/-- The meaning of one operation is its step. -/
theorem meaning_singleton (op : Op) (context : Context) :
    meaning [op] context = step meaning op context := by
  rw [meaning_eq_steps, steps_singleton]

end Program

namespace Evaluation

/-! ## Runs and evaluations under a limit -/

/-- A run has the meaning of its program as its outcome, or reports the limit. -/
theorem runAt_eq_meaning_or (limit depth : Nat) (program : Program) (context : Context) :
    runAt limit depth program context = program.meaning context ∨
      runAt limit depth program context = .error (.depthExceeded limit) := by
  obtain ⟨threshold, hle, outcome, hcut⟩ := cutWithin_runAt program depth context
  rcases Nat.lt_or_ge limit threshold with h | h
  · exact Or.inr (hcut.missed limit h)
  · left
    rw [← runAt_eq_meaning (Nat.le_refl (depth + program.nesting))]
    exact (hcut.reached limit h).trans (hcut.reached _ hle).symm

/-- What a run leaves, at any depth, is what its program means. -/
theorem meaning_of_runAt {limit depth : Nat} {program : Program} {context : Context}
    {evaluation : Evaluation} (h : runAt limit depth program context = .ok evaluation) :
    program.meaning context = .ok evaluation := by
  rcases runAt_eq_meaning_or limit depth program context with heq | heq
  · rw [← heq, h]
  · rw [h] at heq
    cases heq

end Evaluation

namespace Program

open Evaluation

theorem evaluate_eq_meaning {program : Program} {options : Options}
    (h : program.nesting ≤ options.maxDepth) (context : Context) :
    program.evaluate context options = program.meaning context := by
  rw [evaluate_eq_runAt, runAt_eq_meaning (by omega)]

/-- A sufficient limit lets one operation take its step, with the programs inside evaluated on their own. -/
theorem evaluate_singleton {op : Op} {options : Options} (h : op.nesting ≤ options.maxDepth)
    (context : Context) :
    evaluate [op] context options =
      step (fun part context => part.evaluate context options) op context := by
  have hnesting : nesting [op] ≤ options.maxDepth :=
    nesting_le_iff.mpr (List.forall_mem_singleton.mpr h)
  rw [evaluate_eq_meaning hnesting, meaning_singleton]
  refine step_congr (fun part hpart => funext fun given => ?_) context
  have hlt := Op.nesting_part_lt hpart
  exact (evaluate_eq_meaning (by omega) given).symm

/-- An evaluation has the meaning of its program as its outcome, or reports the limit. -/
theorem evaluate_eq_meaning_or (program : Program) (context : Context) (options : Options) :
    program.evaluate context options = program.meaning context ∨
      program.evaluate context options = .error (.depthExceeded options.maxDepth) := by
  rw [evaluate_eq_runAt]
  exact runAt_eq_meaning_or options.maxDepth 0 program context

/-- What an evaluation leaves, under any limit, is what its program means. -/
theorem meaning_of_evaluate {program : Program} {context : Context} {options : Options}
    {evaluation : Evaluation} (h : program.evaluate context options = .ok evaluation) :
    program.meaning context = .ok evaluation := by
  rw [evaluate_eq_runAt] at h
  exact meaning_of_runAt h

/-- Only the data of a run can make a program fail. -/
theorem ofData_of_meaning {program : Program} {context : Context} {e : EvalError}
    (h : program.meaning context = .error e) : e.OfData := by
  obtain ⟨threshold, hle, settled, hcut⟩ := cutWithin_evaluate program context
  have hmeaning : program.evaluate context ⟨program.nesting⟩ = program.meaning context :=
    evaluate_eq_meaning (Nat.le_refl program.nesting) context
  exact hcut.fault e ((hcut.reached program.nesting hle).symm.trans (hmeaning.trans h))

/-! ## Results -/

/-- What a program leaves on a context, if it does not fail. -/
def result (program : Program) (context : Context) : Option Evaluation :=
  (program.meaning context).toOption

theorem result_eq_some_iff {program : Program} {context : Context} {evaluation : Evaluation} :
    program.result context = some evaluation ↔ program.meaning context = .ok evaluation :=
  Traverse.toOption_eq_some_iff

theorem evaluate_eq_ok_iff {program : Program} {options : Options}
    (h : program.nesting ≤ options.maxDepth) {context : Context} {evaluation : Evaluation} :
    program.evaluate context options = .ok evaluation ↔ program.result context = some evaluation := by
  rw [evaluate_eq_meaning h, result_eq_some_iff]

/-- The result of one operation is that of its step. -/
theorem result_singleton (op : Op) (context : Context) :
    result [op] context = (step meaning op context).toOption := by
  rw [result, meaning_singleton]

/-- A program that follows another runs on what this leaves. -/
theorem result_append (first second : Program) (context : Context) :
    result (first ++ second) context =
      first.result context >>= fun before => before.andThen <$> second.result before.context := by
  -- Under a limit that the whole does not touch, all three programs give what they mean.
  let options : Options := ⟨nesting (first ++ second)⟩
  have hlimit : nesting (first ++ second) ≤ options.maxDepth := Nat.le_refl _
  obtain ⟨hfirst, hsecond⟩ := nesting_append_le_iff.mp hlimit
  have happend := evaluate_append first second context options
  simp only [evaluate_eq_meaning hlimit, evaluate_eq_meaning hfirst, evaluate_eq_meaning hsecond] at happend
  simp only [result, happend, Traverse.toOption_bind, Traverse.toOption_map]

/-- A program with one more operation in front runs on what this operation leaves. -/
theorem result_cons (op : Op) (rest : Program) (context : Context) :
    result (op :: rest) context =
      result [op] context >>= fun first => first.andThen <$> result rest first.context :=
  result_append [op] rest context

theorem result_createArray (elements : List Program) (context : Context) :
    result [.createArray elements] context =
      gather <$> elements.mapM fun part => result part context := by
  rw [result_singleton, step, Traverse.toOption_map, Traverse.toOption_mapM]
  rfl

theorem result_createObject (entries : List (String × Program)) (context : Context) :
    result [.createObject entries] context =
      assemble <$> entries.mapM fun entry => (entry.1, ·) <$> result entry.2 context := by
  rw [result_singleton, step, Traverse.toOption_map, Traverse.toOption_mapM]
  simp only [Traverse.toOption_map]
  rfl

theorem result_pipe (source target : Program) (context : Context) :
    result [.pipe source target] context =
      result source context >>= fun before =>
        before.join <$> before.outputs.mapM fun value => result target [value] := by
  rw [result_singleton, step, Traverse.toOption_bind]
  simp only [Traverse.toOption_map, Traverse.toOption_mapM]
  rfl

end Program

end JsonFilter
