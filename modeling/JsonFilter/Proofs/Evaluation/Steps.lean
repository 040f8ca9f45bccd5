import JsonFilter.Host
import JsonFilter.Proofs.Traversal

/-!
# The steps of an evaluation

The outcome of an operation depends on the programs that it holds only through their outcomes.  So a run
is described by one function for an operation, which takes the outcomes of the programs inside as an
argument, and one for a program.

* `Evaluation.accessAll_outcome`: an access to a context is the access to each of its values;
* `Evaluation.accessEach_eq_ok_iff`, `Evaluation.accessEach_eq_error_iff`, `Evaluation.accessAll_events`: when it
  succeeds, what it fails for, and what it notes;
* `Evaluation.step`, `Evaluation.steps`: the outcome of an operation and of a program;
* `Evaluation.runOps_append`: operations after others run on what these leave;
* `Evaluation.enter`, `Evaluation.runOp_outcome`: programs inside an operation are entered one level deeper;
* `Evaluation.runAt_eq`: a run takes these steps, and runs the programs inside one level deeper;
* `Program.evaluate_eq_runAt`: an evaluation is the run on the outermost level.
-/

namespace JsonFilter

namespace Traced

/-- The outcome of a traversal is the traversal of the outcomes. -/
theorem mapM_outcome {α β : Type} (f : α → Traced β) (items : List α) :
    (items.mapM f).outcome = items.mapM fun item => (f item).outcome := by
  induction items with
  | nil => rfl
  | cons item rest ih => simp only [List.mapM_cons, bind_outcome, ih, pure_outcome]; rfl

end Traced

namespace Evaluation

/-! ## Accesses -/

/-- What an access gives for one value. -/
def accessOne (access : Access) (strict : Bool) (apply : Value → Option (List Value))
    (operand : Value) : Except EvalError (List Value) :=
  match apply operand with
  | some values => .ok values
  | none => if strict then .error (.typeMismatch access operand.kind) else .ok []

/-- What an access gives for a context. -/
def accessEach (access : Access) (strict : Bool) (apply : Value → Option (List Value))
    (context : Context) : Except EvalError Context :=
  List.flatten <$> context.mapM (accessOne access strict apply)

theorem accessEach_cons (access : Access) (strict : Bool) (apply : Value → Option (List Value))
    (operand : Value) (rest : Context) :
    accessEach access strict apply (operand :: rest) =
      accessOne access strict apply operand >>= fun values =>
        (values ++ ·) <$> accessEach access strict apply rest := by
  unfold accessEach
  simp only [List.mapM_cons, map_bind, map_pure, List.flatten_cons, Functor.map_map]
  simp only [map_eq_pure_bind]

/-- The values of a context are accessed one after another. -/
theorem accessAll_outcome (access : Access) (strict : Bool) (apply : Value → Option (List Value))
    (context : Context) :
    (accessAll access strict apply context).outcome = accessEach access strict apply context := by
  induction context with
  | nil => rfl
  | cons operand rest ih =>
    rw [accessEach_cons, ← ih, accessAll, accessOne]
    cases apply operand with
    | some values => rfl
    | none =>
      cases strict with
      | true => rfl
      | false =>
        rw [if_neg Bool.false_ne_true, if_neg Bool.false_ne_true, Traced.bind_outcome]
        simp only [Traced.log_outcome, Traverse.ok_bind, List.nil_append]
        exact (id_map _).symm

section Results

variable {access : Access} {strict : Bool} {apply : Value → Option (List Value)}

theorem accessOne_eq_ok_iff {operand : Value} {values : List Value} :
    accessOne access strict apply operand = .ok values ↔
      (strict = true → (apply operand).isSome) ∧ (apply operand).getD [] = values := by
  unfold accessOne
  cases apply operand <;> cases strict <;> simp

theorem accessOne_eq_error_iff {operand : Value} {e : EvalError} :
    accessOne access strict apply operand = .error e ↔
      strict = true ∧ apply operand = none ∧ e = .typeMismatch access operand.kind := by
  unfold accessOne
  cases apply operand <;> cases strict <;> simp [eq_comm]

/-- Leaving out the values that an access does not apply to is taking nothing from them. -/
theorem flatten_filterMap (apply : Value → Option (List Value)) (context : Context) :
    (context.filterMap apply).flatten = (context.map fun operand => (apply operand).getD []).flatten := by
  induction context with
  | nil => rfl
  | cons operand rest ih => cases h : apply operand <;> simp [h, ih]

/-- An access that gives one value for each value that it applies to gives these values. -/
theorem flatten_filterMap_single (apply : Value → Option Value) (context : Context) :
    (context.filterMap (single apply)).flatten = context.filterMap apply := by
  induction context with
  | nil => rfl
  | cons operand rest ih => cases h : apply operand <;> simp [single, h, ← ih]

/-- An access succeeds if it applies to every value or is not strict, and then gives what it gives for the values
that it applies to. -/
theorem accessEach_eq_ok_iff {context values : Context} :
    accessEach access strict apply context = .ok values ↔
      (strict = true → ∀ operand ∈ context, (apply operand).isSome) ∧
        (context.filterMap apply).flatten = values := by
  unfold accessEach
  rw [Traverse.map_eq_ok_iff, flatten_filterMap]
  constructor
  · rintro ⟨parts, hparts, rfl⟩
    have hone : ∀ operand ∈ context, (strict = true → (apply operand).isSome) ∧
        accessOne access strict apply operand = .ok ((apply operand).getD []) := by
      intro operand hoperand
      obtain ⟨part, -, hpart⟩ := Traverse.exists_mem_of_mapM hparts hoperand
      obtain ⟨happlies, rfl⟩ := accessOne_eq_ok_iff.mp hpart
      exact ⟨happlies, hpart⟩
    have hmap := Traverse.mapM_eq_ok_map fun operand hoperand => (hone operand hoperand).2
    refine ⟨fun hstrict operand hoperand => (hone operand hoperand).1 hstrict, ?_⟩
    rw [Except.ok.inj (hparts.symm.trans hmap)]
  · rintro ⟨happlies, rfl⟩
    refine ⟨_, Traverse.mapM_eq_ok_map fun operand hoperand => ?_, rfl⟩
    exact accessOne_eq_ok_iff.mpr ⟨fun hstrict => happlies hstrict operand hoperand, rfl⟩

/-- An access fails if it is strict, and for the first value that it does not apply to. -/
theorem accessEach_eq_error_iff {context : Context} {e : EvalError} :
    accessEach access strict apply context = .error e ↔
      strict = true ∧ ∃ before operand after, context = before ++ operand :: after ∧
        (∀ passed ∈ before, (apply passed).isSome) ∧ apply operand = none ∧
        e = .typeMismatch access operand.kind := by
  unfold accessEach
  rw [Traverse.map_eq_error_iff, Traverse.mapM_eq_error_iff]
  constructor
  · rintro ⟨before, operand, after, rfl, hbefore, hoperand⟩
    obtain ⟨hstrict, hnone, rfl⟩ := accessOne_eq_error_iff.mp hoperand
    refine ⟨hstrict, before, operand, after, rfl, fun passed hpassed => ?_, hnone, rfl⟩
    obtain ⟨values, hvalues⟩ := hbefore passed hpassed
    exact (accessOne_eq_ok_iff.mp hvalues).1 hstrict
  · rintro ⟨hstrict, before, operand, after, rfl, hbefore, hnone, rfl⟩
    refine ⟨before, operand, after, rfl, fun passed hpassed => ?_, ?_⟩
    · exact ⟨_, accessOne_eq_ok_iff.mpr ⟨fun _ => hbefore passed hpassed, rfl⟩⟩
    · exact accessOne_eq_error_iff.mpr ⟨hstrict, hnone, rfl⟩

end Results

/-- An access notes the values that it does not apply to, in order, unless it is strict. -/
theorem accessAll_events (access : Access) (strict : Bool) (apply : Value → Option (List Value))
    (context : Context) :
    (accessAll access strict apply context).events =
      if strict then []
      else (context.filter fun operand => (apply operand).isNone).map
        fun operand => .dropped access operand.kind := by
  induction context with
  | nil => cases strict <;> rfl
  | cons operand rest ih =>
    rw [accessAll]
    cases h : apply operand with
    | some values =>
      rw [List.filter_cons_of_neg (by simp [h])]
      exact ih
    | none =>
      cases strict with
      | true => rfl
      | false =>
        rw [if_neg Bool.false_ne_true] at ih ⊢
        rw [if_neg Bool.false_ne_true, Traced.bind_of_ok rfl, ih, List.filter_cons_of_pos (by simp [h])]
        rfl

theorem exists_of_mem_accessAll {access : Access} {strict : Bool} {apply : Value → Option (List Value)}
    {context : Context} {event : Event} (h : event ∈ (accessAll access strict apply context).events) :
    ∃ kind, event = .dropped access kind := by
  rw [accessAll_events] at h
  split at h
  · cases h
  · obtain ⟨operand, -, rfl⟩ := List.mem_map.mp h
    exact ⟨operand.kind, rfl⟩

/-! ## Operations and programs -/

/-- How a program inside an operation runs: its outcome on a context. -/
abbrev Runner := Program → Context → Except EvalError Evaluation

/-- The outcome of one operation, given how the programs inside it run. -/
def step (inner : Runner) : Op → Context → Except EvalError Evaluation
  | .currentContext, context => .ok (quiet context)
  | .literal value, _ => .ok (quiet [value])
  | .pick key strict, context =>
    quiet <$> accessEach (.pick key) strict (single (Value.field? key)) context
  | .index position strict, context =>
    quiet <$> accessEach .index strict (single (Value.element? position)) context
  | .slice start stop strict, context =>
    if start.isNone && stop.isNone then .error .missingSliceBounds
    else quiet <$> accessEach .slice strict (single (Value.slice? start stop)) context
  | .explode strict, context => ofMembers <$> accessEach .iterate strict Value.members? context
  | .createArray elements, context => gather <$> elements.mapM fun part => inner part context
  | .createObject entries, context =>
    assemble <$> entries.mapM fun entry => (entry.1, ·) <$> inner entry.2 context
  | .pipe source target, context =>
    inner source context >>= fun before =>
      before.join <$> before.outputs.mapM fun value => inner target [value]

/-- The outcome of operations one after another, given how the programs inside them run. -/
def steps (inner : Runner) : Program → Context → Except EvalError Evaluation
  | [], context => .ok (quiet context)
  | op :: rest, context =>
    step inner op context >>= fun first => first.andThen <$> steps inner rest first.context

/-- One operation is a program of its own. -/
theorem steps_singleton (inner : Runner) (op : Op) (context : Context) :
    steps inner [op] context = step inner op context := by
  rw [steps]
  cases step inner op context with
  | error e => rfl
  | ok first =>
    obtain ⟨values, exploded⟩ := first
    cases exploded <;> rfl

/-! ## One program after another -/

theorem quiet_andThen (context : Context) (last : Evaluation) : (quiet context).andThen last = last := by
  unfold andThen quiet
  rw [Bool.false_or]

theorem andThen_assoc (first second third : Evaluation) :
    (first.andThen second).andThen third = first.andThen (second.andThen third) := by
  unfold andThen
  rw [Bool.or_assoc]

/-- Operations that follow others run on what these leave. -/
theorem runOps_append (limit depth : Nat) (first second : Program) (context : Context) :
    runOps limit depth (first ++ second) context =
      runOps limit depth first context >>= fun before =>
        before.andThen <$> runOps limit depth second before.context := by
  induction first generalizing context with
  | nil =>
    have hquiet : (quiet context).andThen = id := funext (quiet_andThen context)
    rw [List.nil_append, runOps, pure_bind, hquiet]
    exact (id_map _).symm
  | cons op rest ih =>
    rw [List.cons_append, runOps, runOps]
    simp only [ih, bind_assoc, map_bind, bind_map_left, Functor.map_map]
    refine bind_congr fun _ => bind_congr fun before => bind_congr fun others => ?_
    have hassoc : (fun last => before.andThen (others.andThen last)) =
        (before.andThen others).andThen := by
      funext last
      exact (andThen_assoc before others last).symm
    rw [hassoc]
    rfl

/-! ## Runs -/

/-- A program is entered at a depth: the limit is checked, and then the operations run. -/
def enter (limit depth : Nat) (program : Program) (context : Context) : Traced Evaluation :=
  checkDepth limit depth >>= fun _ => runOps limit depth program context

/-- How a program runs at a depth, under a limit: the outcome of entering it. -/
def runAt (limit depth : Nat) : Runner := fun program context =>
  (enter limit depth program context).outcome

theorem checkDepth_outcome (limit depth : Nat) :
    (checkDepth limit depth).outcome =
      if limit < depth then .error (.depthExceeded limit) else .ok () := by
  unfold checkDepth
  split <;> rfl

theorem runElements_eq_mapM (limit depth : Nat) (elements : List (List Op)) (context : Context) :
    runElements limit depth elements context =
      elements.mapM fun part => enter limit (depth + 1) part context := by
  induction elements with
  | nil => rw [runElements, List.mapM_nil]
  | cons part rest ih =>
    rw [runElements, List.mapM_cons, ih]
    simp only [enter, bind_assoc, map_eq_pure_bind]

theorem runEntries_eq_mapM (limit depth : Nat) (entries : List (String × List Op))
    (context : Context) :
    runEntries limit depth entries context =
      entries.mapM fun entry => (entry.1, ·) <$> enter limit (depth + 1) entry.2 context := by
  induction entries with
  | nil => rw [runEntries, List.mapM_nil]
  | cons entry rest ih =>
    obtain ⟨key, ops⟩ := entry
    rw [runEntries, List.mapM_cons, ih]
    simp only [enter, bind_assoc, map_eq_pure_bind, pure_bind]

theorem runOp_createObject (limit depth : Nat) (entries : List (String × Program)) (context : Context) :
    runOp limit depth (.createObject entries) context =
      runEntries limit depth entries context >>= fun parts =>
        Traced.log (.objectsBuilt (candidates parts).length (assemble parts).context.length) >>= fun _ =>
          pure (assemble parts) := by
  rw [runOp]

theorem runOp_pipe (limit depth : Nat) (source target : Program) (context : Context) :
    runOp limit depth (.pipe source target) context =
      enter limit (depth + 1) source context >>= fun before =>
        before.join <$> before.outputs.mapM fun value => enter limit (depth + 1) target [value] := by
  rw [runOp, enter, bind_assoc]
  rfl

/-- An operation runs the programs inside it one level deeper. -/
theorem runOp_outcome (limit depth : Nat) (op : Op) (context : Context) :
    (runOp limit depth op context).outcome = step (runAt limit (depth + 1)) op context := by
  cases op with
  | currentContext => rfl
  | literal value => rfl
  | pick key strict => rw [runOp, Traced.map_outcome, accessAll_outcome]; rfl
  | index position strict => rw [runOp, Traced.map_outcome, accessAll_outcome]; rfl
  | slice start stop strict =>
    rw [runOp, step]
    split
    · rfl
    · rw [Traced.map_outcome, accessAll_outcome]; rfl
  | explode strict => rw [runOp, Traced.map_outcome, accessAll_outcome]; rfl
  | createArray elements =>
    rw [runOp, runElements_eq_mapM, Traced.map_outcome, Traced.mapM_outcome]
    rfl
  | createObject entries =>
    rw [runOp_createObject, runEntries_eq_mapM, step]
    simp only [Traced.bind_outcome, Traced.log_outcome, Traced.pure_outcome, Traverse.ok_bind,
      Traced.mapM_outcome]
    exact (map_eq_pure_bind _ _).symm
  | pipe source target =>
    rw [runOp_pipe, step, Traced.bind_outcome]
    simp only [Traced.map_outcome, Traced.mapM_outcome]
    rfl

/-- A program takes its steps one after another. -/
theorem runOps_outcome (limit depth : Nat) (program : Program) (context : Context) :
    (runOps limit depth program context).outcome =
      steps (runAt limit (depth + 1)) program context := by
  induction program generalizing context with
  | nil => rw [runOps]; rfl
  | cons op rest ih =>
    rw [runOps, steps, ← runOp_outcome]
    simp only [Traced.bind_outcome, Traced.log_outcome, Traverse.ok_bind, Traced.map_outcome, ih]
    rfl

/-- A run fails below its depth, and otherwise takes the steps of its program. -/
theorem runAt_eq (limit depth : Nat) (program : Program) (context : Context) :
    runAt limit depth program context =
      if limit < depth then .error (.depthExceeded limit)
      else steps (runAt limit (depth + 1)) program context := by
  rw [← runOps_outcome, runAt, enter, Traced.bind_outcome, checkDepth_outcome]
  split <;> rfl

theorem runAt_of_le {limit depth : Nat} (h : depth ≤ limit) (program : Program) (context : Context) :
    runAt limit depth program context = (runOps limit depth program context).outcome := by
  rw [runAt_eq, if_neg (Nat.not_lt.mpr h), runOps_outcome]

end Evaluation

namespace Program

/-- An evaluation is a run on the outermost level. -/
theorem evaluate_eq_runAt (program : Program) (context : Context) (options : Options) :
    program.evaluate context options = Evaluation.runAt options.maxDepth 0 program context := by
  rw [evaluate, trace, Evaluation.runAt, Evaluation.enter]
  simp only [Traced.bind_outcome, Traced.log_outcome, Traced.pure_outcome, Traverse.ok_bind]
  exact bind_congr fun _ => bind_pure _

/-- No limit keeps a program from running on the outermost level. -/
theorem evaluate_eq_runOps (program : Program) (context : Context) (options : Options) :
    program.evaluate context options =
      (Evaluation.runOps options.maxDepth 0 program context).outcome := by
  rw [evaluate_eq_runAt, Evaluation.runAt_of_le (Nat.zero_le _)]

/-- The evaluation of one operation runs it on the outermost level. -/
theorem evaluate_singleton_eq_runOp (op : Op) (context : Context) (options : Options) :
    evaluate [op] context options = (Evaluation.runOp options.maxDepth 0 op context).outcome := by
  rw [evaluate_eq_runOps, Evaluation.runOps_outcome, Evaluation.steps_singleton, ← Evaluation.runOp_outcome]

/-- A program that follows another runs on what this leaves, and the first failure is that of the whole. -/
theorem evaluate_append (first second : Program) (context : Context) (options : Options) :
    evaluate (first ++ second) context options =
      first.evaluate context options >>= fun before =>
        before.andThen <$> second.evaluate before.context options := by
  simp only [evaluate_eq_runOps, Evaluation.runOps_append, Traced.bind_outcome, Traced.map_outcome]
  rfl

end Program

end JsonFilter
