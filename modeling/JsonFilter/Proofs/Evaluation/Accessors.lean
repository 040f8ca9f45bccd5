import JsonFilter.Proofs.Evaluation.Failures
import JsonFilter.Proofs.Evaluation.Strictness

/-!
# Operations that access values

An operation that accesses values goes through its context in order.  A strict one fails for the first value that
its access rejects; one that is not strict drops each such value and notes its kind.  So every value either
contributes what the access gives for it, once and in its place, or is accounted for by one event.

* `Accessor`: the accesses that operations make to the values of their contexts;
* `Accessor.runOp_op`: an operation makes its access to one value after another;
* `Accessor.accepts_iff`: the kinds of values that an access accepts;
* `Accessor.countP_accepts_add_length`: no value is lost without an event;
* `Accessor.runOp_each`: success, failure, values and events of an operation that accesses values.
-/

namespace JsonFilter

/-- An access that an operation makes to the values of its context.  A range has a start or an end. -/
inductive Accessor where
  | pick (key : String)
  | index (position : Int)
  | slice (start stop : Option Int) (bounded : start.isSome ∨ stop.isSome)
  | explode

namespace Accessor

open Evaluation

/-- The operation that makes an access. -/
def op (strict : Bool) : Accessor → Op
  | pick key => .pick key strict
  | index position => .index position strict
  | slice start stop _ => .slice start stop strict
  | explode => .explode strict

/-- What is reported to have been tried. -/
def access : Accessor → Access
  | pick key => .pick key
  | index _ => .index
  | slice _ _ _ => .slice
  | explode => .iterate

/-- What an access gives for a value, if it accepts the value. -/
def apply : Accessor → Value → Option (List Value)
  | pick key => single (Value.field? key)
  | index position => single (Value.element? position)
  | slice start stop _ => single (Value.slice? start stop)
  | explode => Value.members?

/-- Whether an access accepts a value. -/
def accepts (a : Accessor) (operand : Value) : Bool :=
  (a.apply operand).isSome

/-- The evaluation that leaves what an access has given. -/
def leave : Accessor → Context → Evaluation
  | explode => ofMembers
  | _ => quiet

variable {a : Accessor} {strict : Bool} {context : Context}

/-! ## Accepted values -/

theorem apply_eq_none_iff {operand : Value} : a.apply operand = none ↔ operand.kind ∉ a.access.handles := by
  cases a with
  | pick key => exact single_eq_none_iff.trans Value.field?_eq_none_iff
  | index position => exact single_eq_none_iff.trans Value.element?_eq_none_iff
  | slice start stop bounded => exact single_eq_none_iff.trans Value.slice?_eq_none_iff
  | explode => exact Value.members?_eq_none_iff

/-- An access accepts the values whose kind it can handle. -/
theorem accepts_iff {operand : Value} : a.accepts operand ↔ operand.kind ∈ a.access.handles := by
  rw [accepts, Option.isSome_iff_ne_none, Ne, apply_eq_none_iff, not_not]

theorem exists_apply_eq_single (h : a ≠ explode) : ∃ f, a.apply = single f := by
  cases a with
  | pick | index | slice => exact ⟨_, rfl⟩
  | explode => exact absurd rfl h

@[simp] theorem leave_context (a : Accessor) (values : Context) : (a.leave values).context = values := by
  cases a <;> rfl

/-! ## Runs -/

/-- An operation makes its access to each value of its context. -/
theorem runOp_op (a : Accessor) (strict : Bool) (limit depth : Nat) (context : Context) :
    runOp limit depth (a.op strict) context = a.leave <$> accessAll a.access strict a.apply context := by
  cases a with
  | slice start stop bounded =>
    have hbounds : ¬ (start.isNone && stop.isNone) = true := by
      cases start <;> cases stop <;> simp at bounded ⊢
    rw [op, runOp, if_neg hbounds]
    rfl
  | _ =>
    rw [op, runOp]
    rfl

theorem runOp_outcome (a : Accessor) (strict : Bool) (limit depth : Nat) (context : Context) :
    (runOp limit depth (a.op strict) context).outcome =
      a.leave <$> accessEach a.access strict a.apply context := by
  rw [runOp_op, Traced.map_outcome, accessAll_outcome]
  rfl

theorem runOp_events (a : Accessor) (strict : Bool) (limit depth : Nat) (context : Context) :
    (runOp limit depth (a.op strict) context).events =
      if strict then []
      else (context.filter fun operand => !a.accepts operand).map
        fun operand => .dropped a.access operand.kind := by
  rw [runOp_op, Traced.map_events, accessAll_events]
  simp only [accepts, Option.not_isSome]

theorem runOp_eq_ok_iff {limit depth : Nat} {evaluation : Evaluation} :
    (runOp limit depth (a.op strict) context).outcome = .ok evaluation ↔
      (strict = true → ∀ operand ∈ context, a.accepts operand) ∧
        a.leave (context.filterMap a.apply).flatten = evaluation := by
  simp only [runOp_outcome, Traverse.map_eq_ok_iff, accessEach_eq_ok_iff, accepts]
  constructor
  · rintro ⟨values, ⟨haccepts, rfl⟩, rfl⟩
    exact ⟨haccepts, rfl⟩
  · rintro ⟨haccepts, rfl⟩
    exact ⟨_, ⟨haccepts, rfl⟩, rfl⟩

theorem runOp_eq_error_iff {limit depth : Nat} {e : EvalError} :
    (runOp limit depth (a.op strict) context).outcome = .error e ↔
      strict = true ∧ ∃ before operand after, context = before ++ operand :: after ∧
        (∀ passed ∈ before, a.accepts passed) ∧ ¬ a.accepts operand ∧
        e = .typeMismatch a.access operand.kind := by
  simp only [runOp_outcome, Traverse.map_eq_error_iff, accessEach_eq_error_iff, accepts,
    Option.not_isSome_iff_eq_none]

/-! ## Counting -/

/-- Every event of an operation that accesses values tells of a drop. -/
theorem countP_isDrop_runOp (a : Accessor) (strict : Bool) (limit depth : Nat) (context : Context) :
    ((runOp limit depth (a.op strict) context).events.countP fun event => event.IsDrop) =
      (runOp limit depth (a.op strict) context).events.length := by
  refine List.countP_eq_length.mpr fun event hevent => ?_
  rw [runOp_op, Traced.map_events] at hevent
  obtain ⟨kind, rfl⟩ := exists_of_mem_accessAll hevent
  rfl

/-- An access that gives one value for each value that it accepts gives as many values as it accepts. -/
theorem length_flatten_of_ne_explode (h : a ≠ explode) (context : Context) :
    (context.filterMap a.apply).flatten.length = context.countP a.accepts := by
  obtain ⟨f, hf⟩ := exists_apply_eq_single h
  have haccepts : a.accepts = fun operand => (f operand).isSome := by
    funext operand
    rw [accepts, hf, single, Option.isSome_map]
  rw [hf, flatten_filterMap_single, List.length_filterMap_eq_countP, haccepts]

/-- Each value of a context is accepted, or is noted by an operation that succeeds. -/
theorem countP_accepts_add_length {limit depth : Nat} {evaluation : Evaluation}
    (h : (runOp limit depth (a.op strict) context).outcome = .ok evaluation) :
    context.countP a.accepts + (runOp limit depth (a.op strict) context).events.length = context.length := by
  obtain ⟨haccepts, -⟩ := runOp_eq_ok_iff.mp h
  rw [runOp_events]
  cases strict with
  | true => exact List.countP_eq_length.mpr (haccepts rfl)
  | false =>
    rw [if_neg Bool.false_ne_true, List.length_map, ← List.countP_eq_length_filter,
      List.length_eq_countP_add_countP a.accepts]
    simp only [Bool.not_eq_true, Bool.decide_eq_false]

/-! ## The main statement -/

/-- An access accepts a value if it can handle its kind.  An operation that makes it succeeds if it is not strict or
all values of its context are accepted, and fails otherwise for the first value that is rejected.  It leaves what
the access gives for the accepted values, one after another.  An operation that is not strict notes that it drops
each rejected value, in order, and a strict one notes nothing; so unless the access gives several values for one,
the values of the context are as many as those that are left and the drops together. -/
theorem runOp_each (a : Accessor) (strict : Bool) (limit depth : Nat) (context : Context) :
    (∀ operand, a.accepts operand ↔ operand.kind ∈ a.access.handles) ∧
    ((∃ evaluation, (runOp limit depth (a.op strict) context).outcome = .ok evaluation) ↔
      (strict = true → ∀ operand ∈ context, a.accepts operand)) ∧
    (∀ e, (runOp limit depth (a.op strict) context).outcome = .error e ↔
      strict = true ∧ ∃ before operand after, context = before ++ operand :: after ∧
        (∀ passed ∈ before, a.accepts passed) ∧ ¬ a.accepts operand ∧
        e = .typeMismatch a.access operand.kind) ∧
    ((runOp limit depth (a.op strict) context).events =
      if strict then []
      else (context.filter fun operand => !a.accepts operand).map
        fun operand => .dropped a.access operand.kind) ∧
    ∀ evaluation, (runOp limit depth (a.op strict) context).outcome = .ok evaluation →
      evaluation.context = (context.filterMap a.apply).flatten ∧
      (a ≠ explode → context.length = evaluation.context.length +
        (runOp limit depth (a.op strict) context).events.countP fun event => event.IsDrop) := by
  refine ⟨fun operand => accepts_iff, ?_, fun e => runOp_eq_error_iff,
    runOp_events a strict limit depth context, ?_⟩
  · simp only [runOp_eq_ok_iff, exists_and_left, exists_eq', and_true]
  · intro evaluation h
    obtain ⟨-, rfl⟩ := runOp_eq_ok_iff.mp h
    refine ⟨leave_context a _, fun hne => ?_⟩
    rw [leave_context, length_flatten_of_ne_explode hne, countP_isDrop_runOp]
    exact (countP_accepts_add_length h).symm

/-- A strict access reports the second of four values, and one that is not strict drops the second and the last.  An
explosion of the same values gives two members of an array where the access to a field gives one null. -/
theorem runOp_each_mixed :
    let context : Context := [.object [("a", .bool true)], .null, .array [.null, .bool false], .string "a"]
    let run (strict : Bool) := runOp 302 0 ((pick "a").op strict) context
    let exploded := runOp 302 1 (explode.op false) context
    (run true).outcome = .error (.typeMismatch (.pick "a") .null) ∧ (run true).events = [] ∧
      (∃ evaluation, (run false).outcome = .ok evaluation ∧ evaluation.context = [.bool true, .null] ∧
        4 = evaluation.context.length + (run false).events.countP fun event => event.IsDrop) ∧
      (run false).events = [.dropped (.pick "a") .null, .dropped (.pick "a") .string] ∧
      (∃ evaluation, exploded.outcome = .ok evaluation ∧ evaluation.context = [.bool true, .null, .bool false]) ∧
      exploded.events = [.dropped .iterate .null, .dropped .iterate .string] := by
  intro context run exploded
  obtain ⟨-, -, hfails, hquiet, -⟩ := runOp_each (pick "a") true 302 0 context
  obtain ⟨-, hsucceeds, -, hdrops, hleaves⟩ := runOp_each (pick "a") false 302 0 context
  obtain ⟨-, hexplodes, -, hnotes, hmembers⟩ := runOp_each explode false 302 1 context
  refine ⟨?_, hquiet, ?_, hdrops, ?_, hnotes⟩
  · refine (hfails _).mpr ⟨rfl, [.object [("a", .bool true)]], .null,
      [.array [.null, .bool false], .string "a"], rfl, ?_, nofun, rfl⟩
    exact List.forall_mem_singleton.mpr rfl
  · obtain ⟨evaluation, h⟩ := hsucceeds.mpr nofun
    obtain ⟨hcontext, hlength⟩ := hleaves evaluation h
    exact ⟨evaluation, h, hcontext, hlength nofun⟩
  · obtain ⟨evaluation, h⟩ := hexplodes.mpr nofun
    exact ⟨evaluation, h, (hmembers evaluation h).1⟩

end Accessor

end JsonFilter
