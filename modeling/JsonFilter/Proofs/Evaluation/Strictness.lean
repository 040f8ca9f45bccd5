import JsonFilter.Host
import JsonFilter.Proofs.Program.Data
import JsonFilter.Proofs.Traversal

/-!
# Strict operations

A flag of an operation tells what happens to a value of the wrong kind: a strict operation fails, and one
that is not strict drops the value and notes that.

* `Program.Reflagged`: programs that differ only in their flags;
* `Traced.Sync`: relations on computations under which such programs may run side by side;
* `Program.trace_of_reflagged`: the runs of such programs stand in every relation of this kind;
* `Program.evaluate_strictness`: strictness does nothing but turn drops into failures.
-/

namespace JsonFilter

/-! ## Programs with other flags -/

/-- Two operations are the same but for the flags in them, which stand in a relation place by place. -/
inductive Op.Reflagged (C : Bool → Bool → Prop) : Op → Op → Prop
  | currentContext : Reflagged C currentContext currentContext
  | literal (value : Value) : Reflagged C (literal value) (literal value)
  | pick (key : String) {strict strict' : Bool} (h : C strict strict') :
      Reflagged C (pick key strict) (pick key strict')
  | index (position : Int) {strict strict' : Bool} (h : C strict strict') :
      Reflagged C (index position strict) (index position strict')
  | slice (start stop : Option Int) {strict strict' : Bool} (h : C strict strict') :
      Reflagged C (slice start stop strict) (slice start stop strict')
  | explode {strict strict' : Bool} (h : C strict strict') :
      Reflagged C (explode strict) (explode strict')
  | createArray {elements elements' : List (List Op)}
      (h : List.Forall₂ (List.Forall₂ (Reflagged C)) elements elements') :
      Reflagged C (createArray elements) (createArray elements')
  | createObject {entries entries' : List (String × List Op)}
      (hkeys : entries.map Prod.fst = entries'.map Prod.fst)
      (h : List.Forall₂ (List.Forall₂ (Reflagged C)) (entries.map Prod.snd) (entries'.map Prod.snd)) :
      Reflagged C (createObject entries) (createObject entries')
  | pipe {source source' target target' : List Op}
      (hsource : List.Forall₂ (Reflagged C) source source')
      (htarget : List.Forall₂ (Reflagged C) target target') :
      Reflagged C (pipe source target) (pipe source' target')

/-- Two programs are the same but for the flags in them, which stand in a relation place by place. -/
def Program.Reflagged (C : Bool → Bool → Prop) : Program → Program → Prop :=
  List.Forall₂ (Op.Reflagged C)

section Flags

variable {C : Bool → Bool → Prop}

/-- Operations that differ in flags have the same opcode. -/
theorem Op.Reflagged.code_eq {op op' : Op} (h : Op.Reflagged C op op') : op.code = op'.code := by
  cases h <;> rfl

/-- New flags in one program, chosen in two ways, give programs that differ in flags. -/
theorem Program.reflagged_mapData {g g' : Bool → Bool} (h : ∀ strict, C (g strict) (g' strict))
    (program : Program) : Reflagged C (program.mapData id g) (program.mapData id g') := by
  refine Program.induction
    (P := fun op => Op.Reflagged C (op.mapData id g) (op.mapData id g'))
    (Q := fun program => Reflagged C (program.mapData id g) (program.mapData id g')) ?_ ?_ program
  · intro op hparts
    cases op with
    | currentContext => simpa using .currentContext
    | literal value => simpa using .literal value
    | pick key strict => simpa using .pick key (h strict)
    | index position strict => simpa using .index position (h strict)
    | slice start stop strict => simpa using .slice start stop (h strict)
    | explode strict => simpa using .explode (h strict)
    | createArray elements =>
      rw [Op.mapData_createArray, Op.mapData_createArray]
      refine .createArray ?_
      rw [List.forall₂_map_left_iff, List.forall₂_map_right_iff, List.forall₂_same]
      exact hparts
    | createObject entries =>
      rw [Op.mapData_createObject, Op.mapData_createObject]
      refine .createObject ?_ ?_
      · rw [← Fields.keys, ← Fields.keys, Fields.keys_mapValues, Fields.keys_mapValues]
      · rw [Fields.mapValues, Fields.mapValues, List.map_map, List.map_map,
          List.forall₂_map_left_iff, List.forall₂_map_right_iff, List.forall₂_same]
        exact fun entry hentry => hparts entry.2 (Op.mem_parts_createObject hentry)
    | pipe source target =>
      rw [Op.mapData_pipe, Op.mapData_pipe]
      exact .pipe (hparts source (by simp)) (hparts target (by simp))
  · intro program hops
    rw [mapData_eq_map, mapData_eq_map, Reflagged, List.forall₂_map_left_iff,
      List.forall₂_map_right_iff, List.forall₂_same]
    exact hops

end Flags

/-! ## Runs side by side -/

/-- An event tells that a value was dropped. -/
def Event.IsDrop : Event → Prop
  | dropped .. => True
  | _ => False

instance : DecidablePred Event.IsDrop
  | .dropped .. => .isTrue trivial
  | .dispatch .. | .objectsBuilt .. | .complete .. => .isFalse id

/-- A failure tells that a value was of the wrong kind. -/
def EvalError.IsMismatch : EvalError → Prop
  | typeMismatch .. => True
  | _ => False

/-- What an access does about a value of the wrong kind. -/
def Evaluation.reject (access : Access) (strict : Bool) (kind : Kind) : Traced Unit :=
  if strict then Traced.fail (.typeMismatch access kind) else Traced.log (.dropped access kind)

/-- A relation on computations is kept by all that an evaluation does.  The flags that decide about a value
of the wrong kind need not be the same on both sides. -/
structure Traced.Sync (C : Bool → Bool → Prop)
    (R : ∀ {α : Type}, Traced α → Traced α → Prop) : Prop where
  pure : ∀ {α : Type} (a : α), R (pure a) (pure a)
  log : ∀ event : Event, ¬event.IsDrop → R (log event) (log event)
  fail : ∀ {α : Type} (e : EvalError), ¬e.IsMismatch → R (fail e : Traced α) (fail e)
  bind : ∀ {α β : Type} {x y : Traced α} {f g : α → Traced β},
    R x y → (∀ a, R (f a) (g a)) → R (x >>= f) (y >>= g)
  reject : ∀ (access : Access) (kind : Kind) {strict strict' : Bool}, C strict strict' →
    R (Evaluation.reject access strict kind) (Evaluation.reject access strict' kind)

namespace Traced.Sync

variable {C : Bool → Bool → Prop} {R : ∀ {α : Type}, Traced α → Traced α → Prop}
  {α β : Type}

theorem map (hR : Sync C R) (f : α → β) {x y : Traced α} (h : R x y) : R (f <$> x) (f <$> y) := by
  rw [map_eq_pure_bind, map_eq_pure_bind]
  exact hR.bind h fun a => hR.pure (f a)

theorem mapM (hR : Sync C R) {f g : α → Traced β} (items : List α)
    (h : ∀ item, R (f item) (g item)) : R (items.mapM f) (items.mapM g) := by
  induction items with
  | nil => exact hR.pure []
  | cons item rest ih =>
    rw [List.mapM_cons, List.mapM_cons]
    exact hR.bind (h item) fun a => hR.bind ih fun others => hR.pure (a :: others)

end Traced.Sync

namespace Evaluation

variable {C : Bool → Bool → Prop} {R : ∀ {α : Type}, Traced α → Traced α → Prop}

/-- An access goes on with the rest of a context if the first value has been dropped. -/
theorem accessAll_cons (access : Access) (strict : Bool) (apply : Value → Option (List Value))
    (operand : Value) (rest : Context) :
    accessAll access strict apply (operand :: rest) =
      match apply operand with
      | some values => (values ++ ·) <$> accessAll access strict apply rest
      | none => reject access strict operand.kind >>= fun _ => accessAll access strict apply rest := by
  rw [accessAll]
  cases strict <;> rfl

theorem sync_checkDepth (hR : Traced.Sync C R) (limit depth : Nat) :
    R (checkDepth limit depth) (checkDepth limit depth) := by
  unfold checkDepth
  split
  · exact hR.fail _ nofun
  · exact hR.pure ()

theorem sync_accessAll (hR : Traced.Sync C R) {strict strict' : Bool} (hC : C strict strict')
    (access : Access) (apply : Value → Option (List Value)) (context : Context) :
    R (accessAll access strict apply context) (accessAll access strict' apply context) := by
  induction context with
  | nil => exact hR.pure []
  | cons operand rest ih =>
    rw [accessAll_cons, accessAll_cons]
    cases apply operand with
    | some values => exact hR.map _ ih
    | none => exact hR.bind (hR.reject access operand.kind hC) fun _ => ih

/-- Two programs run side by side at every depth and on every context. -/
def RunSync (R : ∀ {α : Type}, Traced α → Traced α → Prop) (program program' : Program) : Prop :=
  ∀ limit depth context,
    R (runOps limit depth program context) (runOps limit depth program' context)

theorem sync_runElements (hR : Traced.Sync C R) {elements elements' : List Program}
    (h : List.Forall₂ (RunSync R) elements elements') (limit depth : Nat) (context : Context) :
    R (runElements limit depth elements context) (runElements limit depth elements' context) := by
  induction h with
  | nil => exact hR.pure []
  | cons hpart _ ih =>
    rw [runElements, runElements]
    refine hR.bind (sync_checkDepth hR limit (depth + 1)) fun _ => ?_
    exact hR.bind (hpart limit (depth + 1) context) fun part => hR.map _ ih

theorem sync_runEntries (hR : Traced.Sync C R) {entries entries' : List (String × Program)}
    (hkeys : entries.map Prod.fst = entries'.map Prod.fst)
    (h : List.Forall₂ (RunSync R) (entries.map Prod.snd) (entries'.map Prod.snd))
    (limit depth : Nat) (context : Context) :
    R (runEntries limit depth entries context) (runEntries limit depth entries' context) := by
  induction entries generalizing entries' with
  | nil =>
    obtain rfl : entries' = [] := List.map_eq_nil_iff.mp hkeys.symm
    exact hR.pure []
  | cons entry rest ih =>
    cases entries' with
    | nil => exact absurd hkeys (List.cons_ne_nil _ _)
    | cons entry' rest' =>
      obtain ⟨key, ops⟩ := entry
      obtain ⟨key', ops'⟩ := entry'
      obtain ⟨rfl, hkeys'⟩ := List.cons.inj hkeys
      obtain ⟨hops, h'⟩ := List.forall₂_cons.mp h
      rw [runEntries, runEntries]
      refine hR.bind (sync_checkDepth hR limit (depth + 1)) fun _ => ?_
      exact hR.bind (hops limit (depth + 1) context) fun part => hR.map _ (ih hkeys' h')

/-- Operations that differ in flags run side by side if the programs inside them do. -/
theorem sync_runOp (hR : Traced.Sync C R) {op op' : Op} (h : Op.Reflagged C op op')
    (hparts : ∀ part ∈ op.parts, ∀ part', Program.Reflagged C part part' → RunSync R part part')
    (limit depth : Nat) (context : Context) :
    R (runOp limit depth op context) (runOp limit depth op' context) := by
  cases h with
  | currentContext =>
    rw [runOp]
    exact hR.pure _
  | literal value =>
    rw [runOp]
    exact hR.pure _
  | pick key hC =>
    rw [runOp, runOp]
    exact hR.map _ (sync_accessAll hR hC _ _ context)
  | index position hC =>
    rw [runOp, runOp]
    exact hR.map _ (sync_accessAll hR hC _ _ context)
  | slice start stop hC =>
    rw [runOp, runOp]
    split
    · exact hR.fail _ nofun
    · exact hR.map _ (sync_accessAll hR hC _ _ context)
  | explode hC =>
    rw [runOp, runOp]
    exact hR.map _ (sync_accessAll hR hC _ _ context)
  | createArray helements =>
    rw [runOp, runOp]
    have hsync := ((List.forall₂_and_left _ _).mpr ⟨hparts, helements⟩).imp
      fun part part' h => h.1 part' h.2
    exact hR.map _ (sync_runElements hR hsync limit depth context)
  | createObject hkeys hentries =>
    rw [runOp, runOp]
    have hsync := ((List.forall₂_and_left _ _).mpr ⟨hparts, hentries⟩).imp
      fun part part' h => h.1 part' h.2
    refine hR.bind (sync_runEntries hR hkeys hsync limit depth context) fun parts => ?_
    exact hR.bind (hR.log _ nofun) fun _ => hR.pure _
  | pipe hsource htarget =>
    rw [runOp, runOp]
    refine hR.bind (sync_checkDepth hR limit (depth + 1)) fun _ => ?_
    refine hR.bind (hparts _ (by simp) _ hsource limit (depth + 1) context) fun before => ?_
    refine hR.map _ (hR.mapM before.outputs fun value => ?_)
    exact hR.bind (sync_checkDepth hR limit (depth + 1)) fun _ =>
      hparts _ (by simp) _ htarget limit (depth + 1) [value]

/-- Programs that differ in flags run side by side if their operations do. -/
theorem sync_runOps (hR : Traced.Sync C R) {program program' : Program}
    (h : Program.Reflagged C program program')
    (hops : ∀ op ∈ program, ∀ op', Op.Reflagged C op op' → ∀ limit depth context,
      R (runOp limit depth op context) (runOp limit depth op' context)) :
    RunSync R program program' := by
  intro limit depth context
  induction h generalizing context with
  | nil => exact hR.pure _
  | cons hop _ ih =>
    obtain ⟨hfirst, hrest⟩ := List.forall_mem_cons.mp hops
    rw [runOps, runOps, hop.code_eq]
    refine hR.bind (hR.log _ nofun) fun _ => ?_
    refine hR.bind (hfirst _ hop limit depth context) fun first => ?_
    exact hR.map _ (ih hrest first.context)

/-- Programs that differ in flags run side by side. -/
theorem runSync_of_reflagged (hR : Traced.Sync C R) (program : Program) :
    ∀ program', Program.Reflagged C program program' → RunSync R program program' := by
  refine Program.induction
    (P := fun op => ∀ op', Op.Reflagged C op op' → ∀ limit depth context,
      R (runOp limit depth op context) (runOp limit depth op' context))
    (Q := fun program => ∀ program', Program.Reflagged C program program' →
      RunSync R program program') ?_ ?_ program
  · exact fun op hparts op' h => sync_runOp hR h hparts
  · exact fun program hops program' h => sync_runOps hR h hops

end Evaluation

/-- The evaluations of programs that differ in flags stand in every relation that is kept by all that an
evaluation does. -/
theorem Program.trace_of_reflagged {C : Bool → Bool → Prop}
    {R : ∀ {α : Type}, Traced α → Traced α → Prop} (hR : Traced.Sync C R)
    {program program' : Program} (h : Reflagged C program program') (context : Context)
    (options : Options) : R (program.trace context options) (program'.trace context options) := by
  unfold trace
  refine hR.bind (Evaluation.sync_checkDepth hR _ 0) fun _ => ?_
  refine hR.bind (Evaluation.runSync_of_reflagged hR program program' h _ 0 context) fun _ => ?_
  exact hR.bind (hR.log _ nofun) fun _ => hR.pure _

/-! ## Less strict programs -/

namespace Traced

variable {α β : Type}

/-- What the first computation gives, the second gives as well. -/
def Refines (x y : Traced α) : Prop :=
  ∀ a, x.outcome = .ok a → y.outcome = .ok a

/-- The first computation gives exactly what the second gives without dropping a value, and the second
does not fail on a value of the wrong kind. -/
structure Strictens (x y : Traced α) : Prop where
  ok_iff : ∀ a, x.outcome = .ok a ↔ y.outcome = .ok a ∧ ∀ event ∈ y.events, ¬event.IsDrop
  not_mismatch : ∀ e, y.outcome = .error e → ¬e.IsMismatch

/-- A sequence gives a result exactly if both of its parts do. -/
theorem bind_outcome_eq_ok_iff {x : Traced α} {f : α → Traced β} {b : β} :
    (x >>= f).outcome = .ok b ↔ ∃ a, x.outcome = .ok a ∧ (f a).outcome = .ok b := by
  rw [bind_outcome, Traverse.bind_eq_ok_iff]

/-- With strict flags turned off, a success stays a success. -/
theorem sync_refines : Sync (fun strict strict' => strict' = true → strict = true) Refines where
  pure _ _ h := h
  log _ _ _ h := h
  fail _ _ _ h := h
  bind hx hf b h := by
    obtain ⟨a, ha, hb⟩ := bind_outcome_eq_ok_iff.mp h
    exact bind_outcome_eq_ok_iff.mpr ⟨a, hx a ha, hf a b hb⟩
  reject access kind strict strict' hC a h := by
    cases strict with
    | true => cases h
    | false =>
      obtain rfl : strict' = false := Bool.eq_false_iff.mpr fun h => Bool.false_ne_true (hC h)
      exact h

/-- With all flags on against all flags off, drops become failures, and nothing else changes. -/
theorem sync_strictens : Sync (fun strict strict' => strict = true ∧ strict' = false) Strictens where
  pure a := ⟨fun _ => ⟨fun h => ⟨h, nofun⟩, And.left⟩, nofun⟩
  log event hevent :=
    ⟨fun _ => ⟨fun h => ⟨h, List.forall_mem_singleton.mpr hevent⟩, And.left⟩, nofun⟩
  fail e he := by
    refine ⟨fun _ => ⟨nofun, fun h => h.1⟩, fun e' h => ?_⟩
    cases h
    exact he
  bind {α β x y f g} hx hf := by
    -- The events of a sequence are those of both parts, so no drop in it means no drop in either.
    constructor
    · intro b
      rw [bind_outcome_eq_ok_iff]
      constructor
      · rintro ⟨a, ha, hb⟩
        obtain ⟨ha', hkept⟩ := (hx.ok_iff a).mp ha
        obtain ⟨hb', hkept'⟩ := ((hf a).ok_iff b).mp hb
        rw [bind_of_ok ha']
        exact ⟨hb', List.forall_mem_append.mpr ⟨hkept, hkept'⟩⟩
      · rintro ⟨hb, hkept⟩
        obtain ⟨a, ha, hb⟩ := bind_outcome_eq_ok_iff.mp hb
        rw [bind_of_ok ha] at hkept
        obtain ⟨hkept, hkept'⟩ := List.forall_mem_append.mp hkept
        exact ⟨a, (hx.ok_iff a).mpr ⟨ha, hkept⟩, ((hf a).ok_iff b).mpr ⟨hb, hkept'⟩⟩
    · intro e h
      cases ha : y.outcome with
      | error e' =>
        rw [bind_of_error ha] at h
        cases h
        exact hx.not_mismatch _ ha
      | ok a =>
        rw [bind_of_ok ha] at h
        exact (hf a).not_mismatch e h
  reject access kind strict strict' hC := by
    obtain ⟨rfl, rfl⟩ := hC
    refine ⟨fun _ => ⟨nofun, fun h => ?_⟩, nofun⟩
    exact absurd trivial (h.2 (.dropped access kind) (List.mem_singleton_self _))

end Traced

namespace Program

/-- The program with every operation strict, or with none strict. -/
def withStrictness (strict : Bool) : Program → Program :=
  mapData id fun _ => strict

/-- The second program is the first one with some of its strict operations no longer strict. -/
def Relaxed : Program → Program → Prop :=
  Reflagged fun strict strict' => strict' = true → strict = true

/-- Turning strict flags off keeps every success and its result.  A program with all flags on succeeds
exactly if the program with all flags off does so without dropping a value, with the same result, and the
latter does not fail on a value of the wrong kind. -/
theorem evaluate_strictness (context : Context) (options : Options) :
    (∀ program relaxed, Relaxed program relaxed → ∀ evaluation,
      program.evaluate context options = .ok evaluation →
        relaxed.evaluate context options = .ok evaluation) ∧
    ∀ program : Program,
      (∀ evaluation, (program.withStrictness true).evaluate context options = .ok evaluation ↔
        (program.withStrictness false).evaluate context options = .ok evaluation ∧
          ∀ access kind, .dropped access kind ∉
            ((program.withStrictness false).trace context options).events) ∧
      ∀ access kind, (program.withStrictness false).evaluate context options ≠
        .error (.typeMismatch access kind) := by
  refine ⟨fun program relaxed h => ?_, fun program => ?_⟩
  · exact trace_of_reflagged Traced.sync_refines h context options
  · have hflags : Reflagged (fun strict strict' => strict = true ∧ strict' = false)
        (program.withStrictness true) (program.withStrictness false) :=
      reflagged_mapData (fun _ => ⟨rfl, rfl⟩) program
    have h := trace_of_reflagged Traced.sync_strictens hflags context options
    constructor
    · intro evaluation
      refine (h.ok_iff evaluation).trans (and_congr_right fun _ => ?_)
      constructor
      · exact fun hkept access kind hmem => hkept _ hmem trivial
      · rintro hkept (_ | ⟨access, kind⟩ | _ | _) hmem hdrop
        · exact hdrop
        · exact hkept access kind hmem
        · exact hdrop
        · exact hdrop
    · exact fun access kind herror => h.not_mismatch _ herror trivial

/-- The members of an array come out whether the explosion is strict or not, and a null beside it is dropped
by the one and refused by the other. -/
theorem evaluate_strictness_explode :
    evaluate [.explode false] [.array [.string "a"]] {} = .ok ⟨[.string "a"], true⟩ ∧
      evaluate [.explode true] [.null, .array [.string "a"]] {} ≠ .ok ⟨[.string "a"], true⟩ := by
  have hrelaxed : Relaxed [.explode true] [.explode false] := .cons (.explode nofun) .nil
  have hstrict : withStrictness true [.explode true] = [.explode true] := by simp [withStrictness]
  have hlax : withStrictness false [.explode true] = [.explode false] := by simp [withStrictness]
  constructor
  · exact (evaluate_strictness [.array [.string "a"]] {}).1 _ _ hrelaxed _ rfl
  · intro h
    have hsame := ((evaluate_strictness [.null, .array [.string "a"]] {}).2 [.explode true]).1
    rw [hstrict, hlax] at hsame
    obtain ⟨-, hkept⟩ := (hsame _).mp h
    have hevents : (trace [.explode false] [.null, .array [.string "a"]] {}).events =
        [.dispatch .explode 0 2, .dropped .iterate .null, .complete 1 true] := rfl
    rw [hevents] at hkept
    exact hkept .iterate .null (by simp)

end Program

end JsonFilter
