import JsonFilter.Proofs.Evaluation.Steps
import JsonFilter.Proofs.Program.Induction

/-!
# The depth limit

The limit on the depth of programs inside each other is a threshold: a run under it either has the one
outcome that its data decide, or reports the limit, and which of the two depends only on whether the
limit reaches some depth.  That depth is at most the nesting of the program.

* `Evaluation.CutWithin`: outcomes under all limits that are cut off at a threshold;
* `Evaluation.cutWithin_step`, `Evaluation.cutWithin_steps`: operations and programs are, if the programs
  inside them are;
* `Program.evaluate_threshold`: every evaluation is.
-/

namespace JsonFilter

/-! ## Failures of the data -/

/-- The failures that the data of a run decide, whatever its limit. -/
def EvalError.OfData : EvalError → Prop
  | typeMismatch _ _ => True
  | missingSliceBounds => True
  | _ => False

theorem EvalError.ofData_iff {e : EvalError} :
    e.OfData ↔ (∃ access kind, e = .typeMismatch access kind) ∨ e = .missingSliceBounds := by
  cases e <;> simp [OfData]

theorem EvalError.not_ofData_depthExceeded (limit : Nat) : ¬ (depthExceeded limit).OfData :=
  fun h => h

namespace Evaluation

variable {α β : Type}

/-! ## Thresholds -/

/-- Outcomes under all limits that have a threshold: from it on all are the same, and below it each
reports its limit. -/
structure CutOff (threshold : Nat) (settled : Except EvalError α)
    (x : Nat → Except EvalError α) : Prop where
  fault : ∀ e, settled = .error e → e.OfData
  reached : ∀ limit, threshold ≤ limit → x limit = settled
  missed : ∀ limit, limit < threshold → x limit = .error (.depthExceeded limit)

namespace CutOff

variable {threshold limit : Nat} {settled : Except EvalError α} {x : Nat → Except EvalError α}

/-- From the threshold on the limit is not reported. -/
theorem ne_depthExceeded (hx : CutOff threshold settled x) (hlimit : threshold ≤ limit) (n : Nat) :
    x limit ≠ .error (.depthExceeded n) := by
  rw [hx.reached limit hlimit]
  exact fun h => EvalError.not_ofData_depthExceeded n (hx.fault _ h)

/-- An outcome that does not report its limit stays the same under a higher one. -/
theorem eq_of_le (hx : CutOff threshold settled x) {higher : Nat} (hle : limit ≤ higher)
    (hne : x limit ≠ .error (.depthExceeded limit)) : x higher = x limit := by
  have hlimit : threshold ≤ limit := by
    by_contra h
    exact hne (hx.missed limit (Nat.not_le.mp h))
  rw [hx.reached limit hlimit, hx.reached higher (Nat.le_trans hlimit hle)]

/-- If some limit is reported, then so is every lower one. -/
theorem missed_of_le (hx : CutOff threshold settled x) {lower n : Nat} (hle : lower ≤ limit)
    (heq : x limit = .error (.depthExceeded n)) : x lower = .error (.depthExceeded lower) := by
  apply hx.missed
  by_contra h
  exact hx.ne_depthExceeded (Nat.le_trans (Nat.not_lt.mp h) hle) n heq

end CutOff

/-- Outcomes under all limits that have a threshold of at most `bound`. -/
def CutWithin (bound : Nat) (x : Nat → Except EvalError α) : Prop :=
  ∃ threshold ≤ bound, ∃ settled, CutOff threshold settled x

theorem CutWithin.mono {bound bound' : Nat} {x : Nat → Except EvalError α} (hx : CutWithin bound x)
    (hbound : bound ≤ bound') : CutWithin bound' x := by
  obtain ⟨t, ht, settled, hcut⟩ := hx
  exact ⟨t, Nat.le_trans ht hbound, settled, hcut⟩

/-- What does not depend on the limit has the threshold zero. -/
theorem cutWithin_const {bound : Nat} {x : Except EvalError α} (hx : ∀ e, x = .error e → e.OfData) :
    CutWithin bound fun _ => x :=
  ⟨0, Nat.zero_le bound, x, hx, fun _ _ => rfl, fun limit h => absurd h (Nat.not_lt_zero limit)⟩

theorem cutWithin_ok {bound : Nat} (a : α) : CutWithin bound fun _ => .ok a :=
  cutWithin_const nofun

/-- A sequence has the greater of the two thresholds, or the first one if it already fails. -/
theorem CutWithin.bind {bound : Nat} {x : Nat → Except EvalError α}
    {f : Nat → α → Except EvalError β} (hx : CutWithin bound x)
    (hf : ∀ a, CutWithin bound fun limit => f limit a) :
    CutWithin bound fun limit => x limit >>= f limit := by
  obtain ⟨t, ht, settled, hcut⟩ := hx
  cases settled with
  | error e =>
    refine ⟨t, ht, .error e, fun e' he => ?_, fun limit h => ?_, fun limit h => ?_⟩
    · exact hcut.fault e' (by rw [Except.error.inj he])
    · rw [hcut.reached limit h]; rfl
    · rw [hcut.missed limit h]; rfl
  | ok a =>
    obtain ⟨t', ht', settled', hcut'⟩ := hf a
    refine ⟨max t t', Nat.max_le.mpr ⟨ht, ht'⟩, settled', hcut'.fault, fun limit h => ?_,
      fun limit h => ?_⟩
    · obtain ⟨h1, h2⟩ := Nat.max_le.mp h
      rw [hcut.reached limit h1]
      exact hcut'.reached limit h2
    · by_cases h1 : limit < t
      · rw [hcut.missed limit h1]; rfl
      · -- The first part is through, so it is the second one that reports the limit.
        rw [hcut.reached limit (Nat.not_lt.mp h1)]
        exact hcut'.missed limit (by omega)

theorem CutWithin.map {bound : Nat} {x : Nat → Except EvalError α} (hx : CutWithin bound x)
    (f : α → β) : CutWithin bound fun limit => f <$> x limit := by
  simp only [map_eq_pure_bind]
  exact hx.bind fun a => cutWithin_ok (f a)

/-- A traversal has a threshold if each of its items has one. -/
theorem cutWithin_mapM {bound : Nat} {f : Nat → α → Except EvalError β} {items : List α}
    (hf : ∀ item ∈ items, CutWithin bound fun limit => f limit item) :
    CutWithin bound fun limit => items.mapM (f limit) := by
  induction items with
  | nil => exact cutWithin_ok []
  | cons item rest ih =>
    obtain ⟨hitem, hrest⟩ := List.forall_mem_cons.mp hf
    simp only [List.mapM_cons]
    exact hitem.bind fun b => (ih hrest).bind fun bs => cutWithin_ok (b :: bs)

/-- A check of the depth raises the threshold to that depth. -/
theorem CutWithin.check {bound depth : Nat} {x : Nat → Except EvalError α} (hx : CutWithin bound x)
    (hdepth : depth ≤ bound) :
    CutWithin bound fun limit =>
      if limit < depth then .error (.depthExceeded limit) else x limit := by
  obtain ⟨t, ht, settled, hcut⟩ := hx
  refine ⟨max depth t, Nat.max_le.mpr ⟨hdepth, ht⟩, settled, hcut.fault, fun limit h => ?_,
    fun limit h => ?_⟩
  · obtain ⟨h1, h2⟩ := Nat.max_le.mp h
    rw [if_neg (Nat.not_lt.mpr h1)]
    exact hcut.reached limit h2
  · by_cases h1 : limit < depth
    · rw [if_pos h1]
    · rw [if_neg h1]
      exact hcut.missed limit (by omega)

/-! ## Runs -/

/-- An access fails only because of the kind of a value. -/
theorem ofData_of_accessOne {access : Access} {strict : Bool}
    {apply : Value → Option (List Value)} {operand : Value} {e : EvalError}
    (h : accessOne access strict apply operand = .error e) : e.OfData := by
  obtain ⟨-, -, rfl⟩ := accessOne_eq_error_iff.mp h
  exact trivial

theorem cutWithin_accessEach {bound : Nat} (access : Access) (strict : Bool)
    (apply : Value → Option (List Value)) (context : Context) :
    CutWithin bound fun _ => accessEach access strict apply context := by
  refine CutWithin.map (cutWithin_mapM fun operand _ => ?_) List.flatten
  exact cutWithin_const fun e he => ofData_of_accessOne he

/-- An operation has a threshold if the programs inside it have one. -/
theorem cutWithin_step {bound : Nat} {inner : Nat → Runner} {op : Op}
    (hinner : ∀ part ∈ op.parts, ∀ context, CutWithin bound fun limit => inner limit part context)
    (context : Context) : CutWithin bound fun limit => step (inner limit) op context := by
  cases op with
  | currentContext => exact cutWithin_ok _
  | literal value => exact cutWithin_ok _
  | pick key strict => exact (cutWithin_accessEach _ _ _ context).map quiet
  | index position strict => exact (cutWithin_accessEach _ _ _ context).map quiet
  | slice start stop strict =>
    simp only [step]
    split
    · apply cutWithin_const
      intro e he
      obtain rfl := Except.error.inj he
      exact trivial
    · exact (cutWithin_accessEach _ _ _ context).map quiet
  | explode strict => exact (cutWithin_accessEach _ _ _ context).map ofMembers
  | createArray elements =>
    exact (cutWithin_mapM fun part hpart => hinner part hpart context).map gather
  | createObject entries =>
    refine CutWithin.map (cutWithin_mapM fun entry hentry => ?_) assemble
    exact (hinner entry.2 (Op.mem_parts_createObject hentry) context).map (entry.1, ·)
  | pipe source target =>
    refine (hinner source (by simp) context).bind fun before => ?_
    exact (cutWithin_mapM fun value _ => hinner target (by simp) [value]).map before.join

/-- A program has a threshold if its operations have one. -/
theorem cutWithin_steps {bound : Nat} {inner : Nat → Runner} {program : Program}
    (hops : ∀ op ∈ program, ∀ context, CutWithin bound fun limit => step (inner limit) op context)
    (context : Context) : CutWithin bound fun limit => steps (inner limit) program context := by
  induction program generalizing context with
  | nil => exact cutWithin_ok _
  | cons op rest ih =>
    obtain ⟨hop, hrest⟩ := List.forall_mem_cons.mp hops
    refine (hop context).bind fun first => ?_
    exact (ih hrest first.context).map first.andThen

/-- A run has a threshold, at most the depth at which its innermost programs stand. -/
theorem cutWithin_runAt (program : Program) : ∀ depth context,
    CutWithin (depth + program.nesting) fun limit => runAt limit depth program context := by
  refine Program.induction
    (P := fun op => ∀ depth context,
      CutWithin (depth + op.nesting) fun limit => step (runAt limit (depth + 1)) op context)
    (Q := fun program => ∀ depth context,
      CutWithin (depth + program.nesting) fun limit => runAt limit depth program context)
    ?_ ?_ program
  · intro op hparts depth context
    refine cutWithin_step (fun part hpart context' => ?_) context
    have hlt := Op.nesting_part_lt hpart
    exact (hparts part hpart (depth + 1) context').mono (by omega)
  · intro program hops depth context
    simp only [runAt_eq]
    refine CutWithin.check (cutWithin_steps (fun op hop context' => ?_) context)
      (Nat.le_add_right depth _)
    exact (hops op hop depth context').mono
      (Nat.add_le_add_left (Program.nesting_op_le hop) depth)

end Evaluation

namespace Program

/-! ## Evaluations -/

/-- An evaluation has a threshold, at most the nesting of its program. -/
theorem cutWithin_evaluate (program : Program) (context : Context) :
    Evaluation.CutWithin program.nesting fun limit => program.evaluate context ⟨limit⟩ := by
  simp only [evaluate_eq_runAt]
  have hrun := Evaluation.cutWithin_runAt program 0 context
  rwa [Nat.zero_add] at hrun

/-- An evaluation has one outcome from a threshold on, which is at most the nesting of the program, and
reports the limit below it.  So a higher limit keeps an outcome that does not report the limit, a lower
one keeps a report, and a limit that the nesting does not exceed is never reported. -/
theorem evaluate_threshold (program : Program) (context : Context) :
    (∃ threshold ≤ program.nesting, ∃ outcome : Except EvalError Evaluation,
      (∀ e, outcome = .error e →
        (∃ access kind, e = .typeMismatch access kind) ∨ e = .missingSliceBounds) ∧
      ∀ limit, program.evaluate context ⟨limit⟩ =
        if threshold ≤ limit then outcome else .error (.depthExceeded limit)) ∧
    (∀ limit higher, limit ≤ higher →
      program.evaluate context ⟨limit⟩ ≠ .error (.depthExceeded limit) →
      program.evaluate context ⟨higher⟩ = program.evaluate context ⟨limit⟩) ∧
    (∀ limit lower n, lower ≤ limit →
      program.evaluate context ⟨limit⟩ = .error (.depthExceeded n) →
      program.evaluate context ⟨lower⟩ = .error (.depthExceeded lower)) ∧
    ∀ limit n, program.nesting ≤ limit →
      program.evaluate context ⟨limit⟩ ≠ .error (.depthExceeded n) := by
  obtain ⟨threshold, hle, outcome, hcut⟩ := cutWithin_evaluate program context
  refine ⟨⟨threshold, hle, outcome, ?_, ?_⟩, ?_, ?_, ?_⟩
  · intro e he
    exact EvalError.ofData_iff.mp (hcut.fault e he)
  · intro limit
    by_cases h : threshold ≤ limit
    · rw [if_pos h]
      exact hcut.reached limit h
    · rw [if_neg h]
      exact hcut.missed limit (Nat.not_le.mp h)
  · intro limit higher h hne
    exact hcut.eq_of_le h hne
  · intro limit lower n h heq
    exact hcut.missed_of_le h heq
  · intro limit n h
    exact hcut.ne_depthExceeded (Nat.le_trans hle h) n

/-- The target of a pipe is not entered if nothing flows into it, so the threshold can be less than the
nesting: here it is one, and the nesting is two. -/
theorem evaluate_threshold_empty_pipe :
    evaluate [.pipe [.explode true] [.createArray [[.currentContext]]]] [.array []] ⟨0⟩ =
      .error (.depthExceeded 0) ∧
    evaluate [.pipe [.explode true] [.createArray [[.currentContext]]]] [.array []] ⟨302⟩ =
      evaluate [.pipe [.explode true] [.createArray [[.currentContext]]]] [.array []] ⟨1⟩ ∧
    evaluate [.pipe [.explode true] [.createArray [[.currentContext]]]] [.array []] ⟨2⟩ ≠
      .error (.depthExceeded 2) := by
  obtain ⟨-, raise, lower, never⟩ :=
    evaluate_threshold [.pipe [.explode true] [.createArray [[.currentContext]]]] [.array []]
  exact ⟨lower 0 0 0 (by decide) rfl, raise 1 302 (by decide) nofun, never 2 2 (by decide)⟩

end Program

end JsonFilter
