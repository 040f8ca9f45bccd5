import JsonFilter.Proofs.Evaluation.Explosion

/-!
# Failures and where they come from

An evaluation fails because an operation somewhere in its program raises the failure: a strict access that met a
value of a kind it cannot handle, or a slice without bounds.  Such a slice fails whatever it is given, so nothing
that happens before or around it saves a program that always comes to it.

* `Access.handles`: the kinds of values that an access can handle;
* `Op.Raises`: the failures that an operation raises by itself;
* `Evaluation.raises_of_step`, `Evaluation.exists_of_steps_error`: a failure comes from one operation;
* `Program.evaluate_failure`: what a failure tells of the program;
* `Program.evaluate_unbounded`: slices without bounds that a run comes to.
-/

namespace JsonFilter

/-! ## Failures that operations raise -/

/-- The kinds of values that an access can handle. -/
def Access.handles : Access → List Kind
  | pick _ | iterate => [.array, .object]
  | index => [.array]
  | slice => [.array, .string]

namespace Op

/-- A strict operation tries an access. -/
inductive Insists : Op → Access → Prop
  | pick (key : String) : Insists (pick key true) (.pick key)
  | index (position : Int) : Insists (index position true) .index
  | slice {start stop : Option Int} (h : start.isSome ∨ stop.isSome) :
      Insists (slice start stop true) .slice
  | explode : Insists (explode true) .iterate

/-- An operation is a slice with neither a start nor an end. -/
def IsUnbounded (op : Op) : Prop :=
  ∃ strict, op = slice none none strict

/-- An operation raises a failure by itself. -/
def Raises (op : Op) : EvalError → Prop
  | .typeMismatch access kind => op.Insists access ∧ kind ∉ access.handles
  | .missingSliceBounds => op.IsUnbounded
  | _ => False

end Op

namespace Value

/-! ## Values that an access cannot handle -/

theorem field?_eq_none_iff {key : String} {v : Value} :
    v.field? key = none ↔ v.kind ∉ (Access.pick key).handles := by
  cases v <;> simp [field?, kind, Access.handles]

theorem element?_eq_none_iff {position : Int} {v : Value} :
    v.element? position = none ↔ v.kind ∉ Access.index.handles := by
  cases v <;> simp [element?, kind, Access.handles]

theorem slice?_eq_none_iff {start stop : Option Int} {v : Value} :
    v.slice? start stop = none ↔ v.kind ∉ Access.slice.handles := by
  cases v <;> simp [slice?, kind, Access.handles]

theorem members?_eq_none_iff {v : Value} : v.members? = none ↔ v.kind ∉ Access.iterate.handles := by
  cases v <;> simp [members?, kind, Access.handles]

end Value

namespace Evaluation

/-! ## Operations that fail -/

/-- The failure of an access is raised by an operation that tries it. -/
theorem raises_of_accessEach {op : Op} {access : Access} {strict : Bool}
    {apply : Value → Option (List Value)} (hop : strict = true → op.Insists access)
    (happly : ∀ operand, apply operand = none → operand.kind ∉ access.handles) {context : Context}
    {e : EvalError} (h : accessEach access strict apply context = .error e) : op.Raises e := by
  obtain ⟨hstrict, _, operand, _, -, -, hnone, rfl⟩ := accessEach_eq_error_iff.mp h
  exact ⟨hop hstrict, happly operand hnone⟩

theorem single_eq_none_iff {apply : Value → Option Value} {operand : Value} :
    single apply operand = none ↔ apply operand = none := by
  rw [single, Option.map_eq_none_iff]

/-- An operation fails because it raises the failure itself, or because a program inside it fails. -/
theorem raises_of_step {inner : Runner} {op : Op} {context : Context} {e : EvalError}
    (h : step inner op context = .error e) :
    op.Raises e ∨ ∃ part ∈ op.parts, ∃ given, inner part given = .error e := by
  cases op with
  | currentContext | literal => cases h
  | pick key strict =>
    exact .inl (raises_of_accessEach (fun hstrict => hstrict ▸ .pick key)
      (fun _ => (single_eq_none_iff.trans Value.field?_eq_none_iff).mp) (Traverse.map_eq_error_iff.mp h))
  | index position strict =>
    exact .inl (raises_of_accessEach (fun hstrict => hstrict ▸ .index position)
      (fun _ => (single_eq_none_iff.trans Value.element?_eq_none_iff).mp) (Traverse.map_eq_error_iff.mp h))
  | slice start stop strict =>
    rw [step] at h
    split at h
    · next hbounds =>
      obtain rfl := Except.error.inj h
      obtain ⟨hstart, hstop⟩ := Bool.and_eq_true_iff.mp hbounds
      obtain rfl := Option.isNone_iff_eq_none.mp hstart
      obtain rfl := Option.isNone_iff_eq_none.mp hstop
      exact .inl ⟨strict, rfl⟩
    · next hbounds =>
      have hsome : start.isSome ∨ stop.isSome := by
        cases start <;> cases stop <;> simp at hbounds ⊢
      exact .inl (raises_of_accessEach (fun hstrict => hstrict ▸ .slice hsome)
        (fun _ => (single_eq_none_iff.trans Value.slice?_eq_none_iff).mp) (Traverse.map_eq_error_iff.mp h))
  | explode strict =>
    exact .inl (raises_of_accessEach (fun hstrict => hstrict ▸ .explode)
      (fun _ => Value.members?_eq_none_iff.mp) (Traverse.map_eq_error_iff.mp h))
  | createArray elements =>
    obtain ⟨before, part, after, rfl, -, hpart⟩ :=
      Traverse.mapM_eq_error_iff.mp (Traverse.map_eq_error_iff.mp h)
    exact .inr ⟨part, List.mem_append_right _ List.mem_cons_self, context, hpart⟩
  | createObject entries =>
    obtain ⟨before, entry, after, rfl, -, hentry⟩ :=
      Traverse.mapM_eq_error_iff.mp (Traverse.map_eq_error_iff.mp h)
    have hmem : entry ∈ before ++ entry :: after := List.mem_append_right _ List.mem_cons_self
    exact .inr ⟨entry.2, Op.mem_parts_createObject hmem, context, Traverse.map_eq_error_iff.mp hentry⟩
  | pipe source target =>
    rw [step] at h
    cases hsource : inner source context with
    | error e' =>
      rw [hsource, Traverse.error_bind] at h
      exact .inr ⟨source, by simp, context, hsource.trans h⟩
    | ok before =>
      rw [hsource, Traverse.ok_bind] at h
      obtain ⟨_, value, _, -, -, hvalue⟩ :=
        Traverse.mapM_eq_error_iff.mp (Traverse.map_eq_error_iff.mp h)
      exact .inr ⟨target, by simp, [value], hvalue⟩

/-- A program fails because one of its operations does. -/
theorem exists_of_steps_error {inner : Runner} {program : Program} {context : Context} {e : EvalError}
    (h : steps inner program context = .error e) :
    ∃ op ∈ program, ∃ given, step inner op given = .error e := by
  induction program generalizing context with
  | nil => cases h
  | cons op rest ih =>
    rw [steps] at h
    cases hfirst : step inner op context with
    | error e' =>
      rw [hfirst, Traverse.error_bind] at h
      exact ⟨op, List.mem_cons_self, context, hfirst.trans h⟩
    | ok first =>
      rw [hfirst, Traverse.ok_bind] at h
      obtain ⟨later, hlater, hfails⟩ := ih (Traverse.map_eq_error_iff.mp h)
      exact ⟨later, List.mem_cons_of_mem _ hlater, hfails⟩

end Evaluation

namespace Program

open Evaluation

/-- What a program fails for is raised somewhere in it. -/
theorem somewhere_of_meaning (program : Program) : ∀ {context : Context} {e : EvalError},
    program.meaning context = .error e → program.Somewhere fun op => op.Raises e := by
  refine Program.induction
    (P := fun op => ∀ {context e}, step meaning op context = .error e →
      op.Raises e ∨ ∃ part ∈ op.parts, Somewhere (fun op => op.Raises e) part)
    (Q := fun program => ∀ {context e}, program.meaning context = .error e →
      program.Somewhere fun op => op.Raises e)
    ?_ ?_ program
  · intro op hparts context e h
    rcases raises_of_step h with hraises | ⟨part, hpart, given, hfails⟩
    · exact .inl hraises
    · exact .inr ⟨part, hpart, hparts part hpart hfails⟩
  · intro program hops context e h
    rw [meaning_eq_steps] at h
    obtain ⟨op, hop, given, hfails⟩ := exists_of_steps_error h
    rcases hops op hop hfails with hraises | ⟨part, hpart, hsomewhere⟩
    · exact .here hop hraises
    · exact .inside hop hpart hsomewhere

/-- What an evaluation fails for is raised somewhere in the program, unless it is the limit. -/
theorem somewhere_of_evaluate {program : Program} {context : Context} {options : Options} {e : EvalError}
    (h : program.evaluate context options = .error e) (he : e ≠ .depthExceeded options.maxDepth) :
    program.Somewhere fun op => op.Raises e := by
  rcases evaluate_eq_meaning_or program context options with hmeaning | hlimit
  · exact somewhere_of_meaning program (hmeaning.symm.trans h)
  · exact absurd (Except.error.inj (h.symm.trans hlimit)) he

/-- An access that an evaluation fails for stands somewhere in the program as a strict operation, and the kind of
value that is reported is one that the access cannot handle.  If the evaluation fails for missing bounds, then a
slice without bounds stands somewhere in the program.  No evaluation fails because its program cannot be
decoded. -/
theorem evaluate_failure (program : Program) (context : Context) (options : Options) :
    (∀ access kind, program.evaluate context options = .error (.typeMismatch access kind) →
      (program.Somewhere fun op => op.Insists access) ∧ kind ∉ access.handles) ∧
    (program.evaluate context options = .error .missingSliceBounds →
      program.Somewhere Op.IsUnbounded) ∧
    (∀ tag, program.evaluate context options ≠ .error (.unknownOpcode tag)) ∧
    ∀ cause, program.evaluate context options ≠ .error (.invalidProgram cause) := by
  refine ⟨fun access kind h => ?_, fun h => ?_, fun tag h => ?_, fun cause h => ?_⟩
  · have hraises := somewhere_of_evaluate h (by simp)
    obtain ⟨op, hop⟩ := hraises.exists_op
    exact ⟨hraises.imp fun op hop => hop.1, hop.2⟩
  · exact somewhere_of_evaluate h (by simp)
  · obtain ⟨op, hop⟩ := (somewhere_of_evaluate h (by simp)).exists_op
    exact hop
  · obtain ⟨op, hop⟩ := (somewhere_of_evaluate h (by simp)).exists_op
    exact hop

/-- A field of a boolean inside an array, an item of an object that has been built on the way, and a slice without
bounds behind an explosion. -/
theorem evaluate_failure_inside :
    let picks : Program := [.createArray [[.currentContext], [.pick "a" true]]]
    let builds : Program := [.pipe [.createObject [("a", [])]] [.pick "a" false, .index 0 true]]
    let slices : Program := [.pipe [.explode true] [.slice none none false]]
    (picks.evaluate [.bool true] {} = .error (.typeMismatch (.pick "a") .boolean) ∧
      (picks.Somewhere fun op => op.Insists (.pick "a")) ∧ Kind.boolean ∉ (Access.pick "a").handles) ∧
    (builds.evaluate [.object []] {} = .error (.typeMismatch .index .object) ∧
      (builds.Somewhere fun op => op.Insists .index) ∧ Kind.object ∉ Access.index.handles) ∧
    slices.evaluate [.array [.null]] {} = .error .missingSliceBounds ∧ slices.Somewhere Op.IsUnbounded := by
  intro picks builds slices
  have hpicks := (evaluate_failure picks [.bool true] {}).1 (.pick "a") .boolean rfl
  have hbuilds := (evaluate_failure builds [.object []] {}).1 .index .object rfl
  have hslices := (evaluate_failure slices [.array [.null]] {}).2.1 rfl
  exact ⟨⟨rfl, hpicks⟩, ⟨rfl, hbuilds⟩, rfl, hslices⟩

/-! ## Slices without bounds -/

/-- A program that always comes to a slice without bounds leaves nothing. -/
theorem meaning_ne_ok_of_unbounded {program : Program} (hforces : program.Forces Op.IsUnbounded)
    (context : Context) (evaluation : Evaluation) : program.meaning context ≠ .ok evaluation := by
  intro h
  obtain ⟨op, ⟨strict, rfl⟩, before, result, hresult, -⟩ := exists_of_forces hforces h
  cases hresult

theorem runOp_pipe_ne_ok_of_unbounded {source target : Program} (hforces : target.Forces Op.IsUnbounded)
    {context : Context} {before : Evaluation} (hbefore : source.meaning context = .ok before)
    (hne : before.outputs ≠ []) (limit depth : Nat) (evaluation : Evaluation) :
    (runOp limit depth (.pipe source target) context).outcome ≠ .ok evaluation := by
  intro h
  rw [runOp_outcome, step] at h
  obtain ⟨other, hother, h⟩ := Traverse.bind_eq_ok_iff.mp h
  obtain rfl := Except.ok.inj (hbefore.symm.trans (meaning_of_runAt hother))
  obtain ⟨branches, hbranches, -⟩ := Traverse.map_eq_ok_iff.mp h
  obtain ⟨value, hvalue⟩ := List.exists_mem_of_ne_nil _ hne
  obtain ⟨branch, -, hbranch⟩ := Traverse.exists_mem_of_mapM hbranches hvalue
  exact meaning_ne_ok_of_unbounded hforces [value] branch (meaning_of_runAt hbranch)

/-- A program that comes to a slice without bounds outside of the targets of its pipes fails on every context and
under every limit.  A pipe whose target comes to such a slice fails at every depth on every context of which its
source leaves something to take. -/
theorem evaluate_unbounded :
    (∀ program : Program, program.Forces Op.IsUnbounded →
      ∀ context options, ∃ e, program.evaluate context options = .error e) ∧
    ∀ source target : Program, target.Forces Op.IsUnbounded →
      ∀ context given before, source.evaluate context given = .ok before → before.outputs ≠ [] →
        (∀ options, ∃ e, evaluate [.pipe source target] context options = .error e) ∧
        ∀ limit depth, ∃ e, (runOp limit depth (.pipe source target) context).outcome = .error e := by
  constructor
  · intro program hforces context options
    refine Traverse.exists_eq_error_iff.mpr fun evaluation h => ?_
    exact meaning_ne_ok_of_unbounded hforces context evaluation (meaning_of_evaluate h)
  · intro source target hforces context given before hbefore hne
    have hfails : ∀ limit depth, ∃ e, (runOp limit depth (.pipe source target) context).outcome = .error e :=
      fun limit depth => Traverse.exists_eq_error_iff.mpr
        (runOp_pipe_ne_ok_of_unbounded hforces (meaning_of_evaluate hbefore) hne limit depth)
    refine ⟨fun options => ?_, hfails⟩
    rw [evaluate_singleton_eq_runOp]
    exact hfails options.maxDepth 0

/-- A slice without bounds in an entry that is written over, on an empty context and behind a literal, and one
behind the members of an array. -/
theorem evaluate_unbounded_overwritten :
    let entries : List (String × Program) :=
      [("a", [.pipe [.slice none none false] []]), ("a", [.literal .null])]
    let overwritten : Program := [.createObject entries, .literal (.bool true)]
    (∃ e, overwritten.evaluate [] {} = .error e) ∧
      ∃ e, evaluate [.pipe [.explode true] [.createArray [[.slice none none true]]]] [.array [.null]] {} =
        .error e := by
  intro entries overwritten
  have hslice : Op.IsUnbounded (.slice none none false) := ⟨false, rfl⟩
  have hpipe : Op.Forces Op.IsUnbounded (.pipe [.slice none none false] []) :=
    .inside (List.mem_singleton_self _) (List.mem_singleton_self _) (.here hslice)
  have hentry : [Op.pipe [.slice none none false] []] ∈ Op.forcedParts (.createObject entries) :=
    List.mem_cons_self
  have hoverwritten : overwritten.Forces Op.IsUnbounded :=
    ⟨_, List.mem_cons_self, .inside hentry (List.mem_singleton_self _) hpipe⟩
  have helement : [Op.slice none none true] ∈ Op.forcedParts (.createArray [[.slice none none true]]) :=
    List.mem_singleton_self _
  have htarget : Program.Forces Op.IsUnbounded [.createArray [[.slice none none true]]] :=
    ⟨_, List.mem_singleton_self _, .inside helement (List.mem_singleton_self _) (.here ⟨true, rfl⟩)⟩
  refine ⟨evaluate_unbounded.1 overwritten hoverwritten [] {}, ?_⟩
  exact (evaluate_unbounded.2 [.explode true] _ htarget [.array [.null]] {} _ rfl
    (List.cons_ne_nil _ _)).1 {}

end Program

end JsonFilter
