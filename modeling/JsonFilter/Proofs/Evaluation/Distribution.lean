import JsonFilter.Proofs.Evaluation.PipeLaws

/-!
# Programs that access values

A program that passes its context on, accesses values and explodes them treats each value of a context on its
own, although it takes one operation after another over all of them.  So a pipe into such a program, which runs
it on one value after another, leaves what the program leaves behind the source of the pipe.

* `Program.IsAccess`: the programs without literals and without programs inside;
* `Program.distributes_result`: they run on each part of a context by itself;
* `Program.evaluate_access`: contexts one after the other, and pipes against sequences.
-/

namespace JsonFilter

/-- Operations of a sort pass their context on or access each of its values. -/
def Opcode.isAccess : Opcode → Bool
  | currentContext | pick | index | slice | explode => true
  | _ => false

/-- A program consists of operations that pass their context on or access each of its values. -/
def Program.IsAccess (program : Program) : Prop :=
  ∀ op ∈ program, op.code.isAccess

instance (program : Program) : Decidable program.IsAccess :=
  inferInstanceAs (Decidable (∀ op ∈ program, op.code.isAccess = true))

namespace Evaluation

/-! ## One operation -/

/-- An access to two contexts one after the other accesses the values of the first and then those of the
second. -/
theorem accessEach_append (access : Access) (strict : Bool) (apply : Value → Option (List Value))
    (left right : Context) :
    accessEach access strict apply (left ++ right) =
      accessEach access strict apply left >>= fun first =>
        (first ++ ·) <$> accessEach access strict apply right := by
  unfold accessEach
  simp only [List.mapM_append, List.flatten_append, ← bind_pure_comp, bind_assoc, pure_bind]

theorem distributes_accessEach {access : Access} {strict : Bool} {apply : Value → Option (List Value)}
    {leave : Context → Evaluation}
    (hleave : ∀ left right, leave (left ++ right) = (leave left).beside (leave right)) :
    Distributes fun context => leave <$> (accessEach access strict apply context).toOption := by
  intro left right
  simp only [accessEach_append, Traverse.toOption_bind, Traverse.toOption_map]
  cases (accessEach access strict apply left).toOption with
  | none => rfl
  | some first =>
    cases (accessEach access strict apply right).toOption with
    | none => rfl
    | some last => exact congrArg some (hleave first last)

theorem quiet_append (left right : Context) : quiet (left ++ right) = (quiet left).beside (quiet right) := rfl

theorem ofMembers_append (left right : Context) :
    ofMembers (left ++ right) = (ofMembers left).beside (ofMembers right) := rfl

/-- An operation that accesses values distributes. -/
theorem distributes_step {op : Op} (h : op.code.isAccess) :
    Distributes fun context => (step Program.meaning op context).toOption := by
  cases op with
  | currentContext => exact fun left right => rfl
  | pick key strict =>
    simp only [step, Traverse.toOption_map]
    exact distributes_accessEach quiet_append
  | index position strict =>
    simp only [step, Traverse.toOption_map]
    exact distributes_accessEach quiet_append
  | slice start stop strict =>
    simp only [step]
    split
    · exact fun left right => rfl
    · simp only [Traverse.toOption_map]
      exact distributes_accessEach quiet_append
  | explode strict =>
    simp only [step, Traverse.toOption_map]
    exact distributes_accessEach ofMembers_append
  | _ => cases h

end Evaluation

namespace Program

open Evaluation

/-! ## Programs -/

/-- A program that accesses values distributes. -/
theorem distributes_result {program : Program} (h : program.IsAccess) : Distributes program.result := by
  induction program with
  | nil => exact fun left right => rfl
  | cons op rest ih =>
    obtain ⟨hop, hrest⟩ := List.forall_mem_cons.mp h
    have hrun : result (op :: rest) = fun context =>
        result [op] context >>= fun first => first.andThen <$> result rest first.context :=
      funext (result_cons op rest)
    have hfirst : Distributes (result [op]) := by
      rw [funext (result_singleton op)]
      exact distributes_step hop
    rw [hrun]
    exact hfirst.andThen (ih hrest)

/-- A program that accesses values holds no other programs. -/
theorem IsAccess.nesting_eq_zero {program : Program} (h : program.IsAccess) : program.nesting = 0 := by
  refine Nat.le_zero.mp (nesting_le_iff.mpr fun op hop => ?_)
  have hcode := h op hop
  cases op with
  | createArray | createObject | pipe => cases hcode
  | _ => exact Nat.le_refl 0

/-- A pipe into a program that accesses values leaves what the program leaves behind the source, if anything
comes out of the source. -/
theorem result_pipe_eq_append {source target : Program} (h : target.IsAccess) {value : Value}
    (hsource : ∀ before, source.result [value] = some before → before.context ≠ []) :
    result [.pipe source target] [value] = result (source ++ target) [value] := by
  rw [result_pipe_singleton, result_append]
  refine Option.bind_congr fun before hbefore => ?_
  rw [(distributes_result h).eq_fanOut (hsource before hbefore)]

/-! ## Evaluations -/

/-- A program that passes its context on, accesses values and explodes them leaves of two contexts one after the
other what it leaves of each.  So a pipe into it leaves what the plain sequence leaves, with the same report of an
explosion, if anything comes out of the source of the pipe. -/
theorem evaluate_access (target : Program) (haccess : target.IsAccess) (options : Options) :
    (∀ left right,
      ((∃ evaluation, target.evaluate (left ++ right) options = .ok evaluation) ↔
        (∃ first, target.evaluate left options = .ok first) ∧
          ∃ second, target.evaluate right options = .ok second) ∧
      ∀ evaluation first second, target.evaluate (left ++ right) options = .ok evaluation →
        target.evaluate left options = .ok first → target.evaluate right options = .ok second →
          evaluation.context = first.context ++ second.context) ∧
    ∀ (source : Program) (value : Value) (before : Evaluation), source.nesting + 1 ≤ options.maxDepth →
      source.evaluate [value] options = .ok before → before.context ≠ [] →
        ∀ evaluation, evaluate [.pipe source target] [value] options = .ok evaluation ↔
          evaluate (source ++ target) [value] options = .ok evaluation := by
  have hzero := haccess.nesting_eq_zero
  have htarget : target.nesting ≤ options.maxDepth := hzero ▸ Nat.zero_le _
  constructor
  · intro left right
    simp only [evaluate_eq_ok_iff htarget, distributes_result haccess left right]
    cases target.result left with
    | none => simp
    | some first => cases target.result right <;> simp [beside, eq_comm]
  · intro source value before hdepth hbefore hne evaluation
    have hsource : source.nesting ≤ options.maxDepth := Nat.le_of_succ_le hdepth
    have hpipe : nesting [.pipe source target] ≤ options.maxDepth := by
      simp [nesting_le_iff, Op.nesting_le_iff]
      omega
    have hsequence : nesting (source ++ target) ≤ options.maxDepth :=
      nesting_append_le_iff.mpr ⟨hsource, htarget⟩
    have hresult := (evaluate_eq_ok_iff hsource).mp hbefore
    have hsome : ∀ other, source.result [value] = some other → other.context ≠ [] := by
      rintro other hother
      obtain rfl := Option.some.inj (hresult.symm.trans hother)
      exact hne
    rw [evaluate_eq_ok_iff hpipe, evaluate_eq_ok_iff hsequence, result_pipe_eq_append haccess hsome]

/-- Fields that are dropped and members that are taken, from two contexts and behind a source that explodes. -/
theorem evaluate_access_members :
    let target : Program := [.pick "a" false, .explode true]
    let left : Value := .object [("a", .array [.null, .bool true])]
    let right : Value := .object [("a", .array [.string "b"])]
    (∃ evaluation, target.evaluate ([left, .null] ++ [right]) {} = .ok evaluation) ∧
      (∀ evaluation, target.evaluate ([left, .null] ++ [right]) {} = .ok evaluation →
        evaluation.context = [.null, .bool true, .string "b"]) ∧
      evaluate [.pipe [.explode true] target] [.array [left, .null, right]] {} =
        .ok ⟨[.null, .bool true, .string "b"], true⟩ ∧
      ¬ ∃ evaluation, evaluate [.pick "a" true] ([left, .null] ++ [right]) {} = .ok evaluation := by
  intro target left right
  have haccess : target.IsAccess := by decide
  obtain ⟨hcontexts, hpipe⟩ := evaluate_access target haccess {}
  obtain ⟨hiff, hvalues⟩ := hcontexts [left, .null] [right]
  have hstrict := (evaluate_access [.pick "a" true] (by decide) {}).1 [left, .null] [right]
  refine ⟨hiff.mpr ⟨⟨_, rfl⟩, ⟨_, rfl⟩⟩, fun evaluation h => hvalues evaluation _ _ h rfl rfl, ?_, ?_⟩
  · exact (hpipe [.explode true] _ _ (by decide) rfl (List.cons_ne_nil _ _) _).mpr rfl
  · rintro h
    obtain ⟨⟨first, hfirst⟩, -⟩ := hstrict.1.mp h
    cases hfirst

end Program

end JsonFilter
