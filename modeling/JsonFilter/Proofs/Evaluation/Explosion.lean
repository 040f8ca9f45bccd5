import JsonFilter.Proofs.Evaluation.Meaning

/-!
# Explosions that are reported

An evaluation reports an explosion exactly if an operation that explodes values has started on its way,
whatever has become of these values since.

* `Traced.Signals`: a result tells whether an explosion has started;
* `Evaluation.signals_runOps`: the result of a run does;
* `Evaluation.exists_of_mem_forcedParts`, `Evaluation.exists_of_mem_steps`: what always runs has succeeded if
  the whole has;
* `Program.explosion_iff_dispatch`: when an evaluation reports an explosion.
-/

namespace JsonFilter

/-! ## Computations that tell of explosions -/

/-- An event tells that an explosion starts. -/
def Event.IsExplosion : Event → Prop
  | dispatch code _ _ => code = .explode
  | _ => False

namespace Traced

variable {α β : Type}

/-- If a computation gives a result, a property of the result tells whether an explosion has started, in the
computation or before it. -/
def Signals (before : Prop) (x : Traced α) (after : α → Prop) : Prop :=
  ∀ a, x.outcome = .ok a → (after a ↔ before ∨ ∃ event ∈ x.events, event.IsExplosion)

variable {before : Prop}

theorem signals_pure {a : α} {after : α → Prop} (h : after a ↔ before) :
    Signals before (pure a) after := by
  rintro _ ⟨⟩
  simpa using h

theorem signals_fail (e : EvalError) (after : α → Prop) : Signals before (fail e) after :=
  nofun

theorem signals_log (event : Event) :
    Signals before (log event) fun _ => before ∨ event.IsExplosion := by
  intro _ _
  simp

/-- What has started before a computation has started before what follows it. -/
theorem Signals.bind {x : Traced α} {f : α → Traced β} {between : α → Prop} {after : β → Prop}
    (hx : Signals before x between) (hf : ∀ a, Signals (between a) (f a) after) :
    Signals before (x >>= f) after := by
  intro b hb
  rw [bind_outcome] at hb
  obtain ⟨a, ha, hb⟩ := Traverse.bind_eq_ok_iff.mp hb
  rw [bind_of_ok ha, hf a b hb, hx a ha, or_assoc]
  refine or_congr_right ?_
  simp only [List.mem_append, or_and_right, exists_or]

theorem Signals.map {x : Traced α} {f : α → β} {between : α → Prop} {after : β → Prop}
    (hx : Signals before x between) (h : ∀ a, after (f a) ↔ between a) :
    Signals before (f <$> x) after := by
  rw [map_eq_pure_bind]
  exact hx.bind fun a => signals_pure (h a)

end Traced

namespace Evaluation

open Traced

variable {before : Prop}

theorem signals_checkDepth (limit depth : Nat) :
    Signals before (checkDepth limit depth) fun _ => before := by
  unfold checkDepth
  split
  · exact signals_fail _ _
  · exact signals_pure Iff.rfl

/-- An access starts no explosion of its own. -/
theorem signals_accessAll (access : Access) (strict : Bool) (apply : Value → Option (List Value))
    (context : Context) :
    Signals before (accessAll access strict apply context) fun _ => before := by
  intro _ _
  refine ⟨Or.inl, fun h => h.elim id ?_⟩
  rintro ⟨event, hmem, hexplosion⟩
  obtain ⟨kind, rfl⟩ := exists_of_mem_accessAll hmem
  exact hexplosion.elim

/-- A program tells, at every depth and on every context, whether it has exploded a value. -/
def RunSignals (program : Program) : Prop :=
  ∀ (before : Prop) limit depth context, Signals before (runOps limit depth program context)
    fun evaluation => before ∨ evaluation.exploded = true

theorem signals_runElements {elements : List Program} (h : ∀ part ∈ elements, RunSignals part)
    (limit depth : Nat) (context : Context) :
    Signals before (runElements limit depth elements context)
      fun parts => before ∨ parts.any exploded = true := by
  induction elements generalizing before with
  | nil =>
    rw [runElements]
    exact signals_pure (by simp)
  | cons part rest ih =>
    obtain ⟨hpart, hrest⟩ := List.forall_mem_cons.mp h
    rw [runElements]
    refine (signals_checkDepth _ _).bind fun _ => ?_
    refine (hpart _ _ _ _).bind fun first => ?_
    exact (ih hrest).map fun others => by simp [or_assoc]

theorem signals_runEntries {entries : List (String × Program)}
    (h : ∀ entry ∈ entries, RunSignals entry.2) (limit depth : Nat) (context : Context) :
    Signals before (runEntries limit depth entries context)
      fun parts => before ∨ (parts.any fun part => part.2.exploded) = true := by
  induction entries generalizing before with
  | nil =>
    rw [runEntries]
    exact signals_pure (by simp)
  | cons entry rest ih =>
    obtain ⟨key, ops⟩ := entry
    obtain ⟨hentry, hrest⟩ := List.forall_mem_cons.mp h
    rw [runEntries]
    refine (signals_checkDepth _ _).bind fun _ => ?_
    refine (hentry _ _ _ _).bind fun first => ?_
    exact (ih hrest).map fun others => by simp [or_assoc]

theorem signals_branches {run : Value → Traced Evaluation}
    (h : ∀ (before : Prop) value, Signals before (run value)
      fun branch => before ∨ branch.exploded = true) (values : List Value) :
    Signals before (values.mapM run) fun branches => before ∨ branches.any exploded = true := by
  induction values generalizing before with
  | nil => exact signals_pure (by simp)
  | cons value rest ih =>
    rw [List.mapM_cons]
    refine (h _ value).bind fun first => ?_
    exact ih.bind fun others => signals_pure (by simp [or_assoc])

/-- An operation explodes values itself, or the programs inside it do. -/
theorem signals_runOp {op : Op} (hparts : ∀ part ∈ op.parts, RunSignals part) (limit depth : Nat)
    (context : Context) :
    Signals (before ∨ op.code = .explode) (runOp limit depth op context)
      fun evaluation => before ∨ evaluation.exploded = true := by
  cases op with
  | currentContext | literal =>
    rw [runOp]
    exact signals_pure (by simp [quiet, Op.code])
  | pick | index =>
    rw [runOp]
    exact (signals_accessAll _ _ _ _).map fun _ => by simp [quiet, Op.code]
  | slice start stop strict =>
    rw [runOp]
    split
    · exact signals_fail _ _
    · exact (signals_accessAll _ _ _ _).map fun _ => by simp [quiet, Op.code]
  | explode strict =>
    rw [runOp]
    exact (signals_accessAll _ _ _ _).map fun _ => by simp [ofMembers, Op.code]
  | createArray elements =>
    rw [runOp]
    exact (signals_runElements hparts limit depth context).map fun parts => by simp [gather, Op.code]
  | createObject entries =>
    rw [runOp]
    refine (signals_runEntries (fun entry hentry => hparts _ (Op.mem_parts_createObject hentry))
      limit depth context).bind fun parts => ?_
    refine (signals_log _).bind fun _ => signals_pure ?_
    simp [assemble, Op.code, Event.IsExplosion]
  | pipe source target =>
    rw [runOp]
    refine (signals_checkDepth _ _).bind fun _ => ?_
    refine (hparts source (by simp) _ _ _ _).bind fun first => ?_
    refine (signals_branches (fun before value => ?_) first.outputs).map fun branches => ?_
    · exact (signals_checkDepth _ _).bind fun _ => hparts target (by simp) _ _ _ _
    · simp [join, Op.code, or_assoc]

/-- The operations of a program explode values one after another. -/
theorem runSignals_of_ops {program : Program}
    (hops : ∀ op ∈ program, ∀ (before : Prop) limit depth context,
      Signals (before ∨ op.code = .explode) (runOp limit depth op context)
        fun evaluation => before ∨ evaluation.exploded = true) : RunSignals program := by
  intro before limit depth context
  induction program generalizing before context with
  | nil =>
    rw [runOps]
    exact signals_pure (by simp [quiet])
  | cons op rest ih =>
    obtain ⟨hop, hrest⟩ := List.forall_mem_cons.mp hops
    rw [runOps]
    refine (signals_log _).bind fun _ => ?_
    refine (hop before limit depth context).bind fun first => ?_
    exact (ih hrest _ first.context).map fun last => by simp [andThen, or_assoc]

/-- Every program tells whether it has exploded a value. -/
theorem signals_runOps (program : Program) : RunSignals program := by
  refine Program.induction
    (P := fun op => ∀ (before : Prop) limit depth context,
      Signals (before ∨ op.code = .explode) (runOp limit depth op context)
        fun evaluation => before ∨ evaluation.exploded = true)
    (Q := RunSignals) ?_ ?_ program
  · exact fun op hparts before => signals_runOp hparts
  · exact fun program hops => runSignals_of_ops hops

/-! ## What always runs -/

/-- If an operation succeeds, then so do the programs that always run with it, and it explodes values if one of
them does. -/
theorem exists_of_mem_forcedParts {inner : Runner} {op : Op} {context : Context}
    {evaluation : Evaluation} (h : step inner op context = .ok evaluation) {part : Program}
    (hpart : part ∈ op.forcedParts) :
    ∃ result, inner part context = .ok result ∧
      (result.exploded = true → evaluation.exploded = true) := by
  cases op with
  | createArray elements =>
    obtain ⟨parts, hparts, rfl⟩ := Traverse.map_eq_ok_iff.mp h
    obtain ⟨result, hmem, hresult⟩ := Traverse.exists_mem_of_mapM hparts hpart
    exact ⟨result, hresult, fun hexploded => List.any_eq_true.mpr ⟨result, hmem, hexploded⟩⟩
  | createObject entries =>
    obtain ⟨parts, hparts, rfl⟩ := Traverse.map_eq_ok_iff.mp h
    obtain ⟨entry, hentry, rfl⟩ := List.mem_map.mp hpart
    obtain ⟨field, hmem, hfield⟩ := Traverse.exists_mem_of_mapM hparts hentry
    obtain ⟨result, hresult, rfl⟩ := Traverse.map_eq_ok_iff.mp hfield
    exact ⟨result, hresult, fun hexploded => List.any_eq_true.mpr ⟨_, hmem, hexploded⟩⟩
  | pipe source target =>
    obtain rfl := List.mem_singleton.mp hpart
    obtain ⟨before, hbefore, h⟩ := Traverse.bind_eq_ok_iff.mp h
    obtain ⟨branches, -, rfl⟩ := Traverse.map_eq_ok_iff.mp h
    exact ⟨before, hbefore, fun hexploded => by simp [join, hexploded]⟩
  | _ => cases hpart

/-- If a program succeeds, then so do its operations, and it explodes values if one of them does. -/
theorem exists_of_mem_steps {inner : Runner} {program : Program} {context : Context}
    {evaluation : Evaluation} (h : steps inner program context = .ok evaluation) {op : Op}
    (hop : op ∈ program) :
    ∃ before result, step inner op before = .ok result ∧
      (result.exploded = true → evaluation.exploded = true) := by
  induction program generalizing context evaluation with
  | nil => cases hop
  | cons first rest ih =>
    obtain ⟨start, hstart, h⟩ := Traverse.bind_eq_ok_iff.mp h
    obtain ⟨last, hlast, rfl⟩ := Traverse.map_eq_ok_iff.mp h
    rcases List.mem_cons.mp hop with rfl | hop
    · exact ⟨context, start, hstart, fun hexploded => by simp [andThen, hexploded]⟩
    · obtain ⟨before, result, hresult, hkeeps⟩ := ih hlast hop
      exact ⟨before, result, hresult, fun hexploded => by simp [andThen, hkeeps hexploded]⟩

/-- If an operation succeeds, then so does one with a property that always runs with it. -/
theorem exists_of_forces {p : Op → Prop} {op : Op} (hforces : op.Forces p) :
    ∀ {context : Context} {evaluation : Evaluation},
      step Program.meaning op context = .ok evaluation →
      ∃ inner, p inner ∧ ∃ before result, step Program.meaning inner before = .ok result ∧
        (result.exploded = true → evaluation.exploded = true) := by
  induction hforces with
  | here hop => exact fun {context evaluation} h => ⟨_, hop, context, evaluation, h, id⟩
  | inside hpart hinner _ ih =>
    intro context evaluation h
    obtain ⟨result, hresult, hkeeps⟩ := exists_of_mem_forcedParts h hpart
    rw [Program.meaning_eq_steps] at hresult
    obtain ⟨before, part, hstep, hpartKeeps⟩ := exists_of_mem_steps hresult hinner
    obtain ⟨found, hfound, start, last, hlast, hlastKeeps⟩ := ih hstep
    exact ⟨found, hfound, start, last, hlast, fun h => hkeeps (hpartKeeps (hlastKeeps h))⟩

end Evaluation

namespace Program

open Evaluation

/-- If a program succeeds, then so does an operation with a property that always runs with it. -/
theorem exists_of_forces {p : Op → Prop} {program : Program} (hforces : program.Forces p)
    {context : Context} {evaluation : Evaluation} (h : program.meaning context = .ok evaluation) :
    ∃ op, p op ∧ ∃ before result, step meaning op before = .ok result ∧
      (result.exploded = true → evaluation.exploded = true) := by
  obtain ⟨op, hop, hforces⟩ := hforces
  rw [meaning_eq_steps] at h
  obtain ⟨before, result, hstep, hkeeps⟩ := exists_of_mem_steps h hop
  obtain ⟨found, hfound, start, last, hlast, hlastKeeps⟩ := Evaluation.exists_of_forces hforces hstep
  exact ⟨found, hfound, start, last, hlast, fun h => hkeeps (hlastKeeps h)⟩

/-- An explosion that always runs is reported. -/
theorem exploded_of_forces {program : Program}
    (hforces : program.Forces fun op => op.code = .explode) {context : Context}
    {evaluation : Evaluation} (h : program.meaning context = .ok evaluation) :
    evaluation.exploded = true := by
  obtain ⟨op, hcode, before, result, hresult, hkeeps⟩ := exists_of_forces hforces h
  cases op with
  | explode strict =>
    obtain ⟨values, -, rfl⟩ := Traverse.map_eq_ok_iff.mp hresult
    exact hkeeps rfl
  | _ => cases hcode

/-! ## Programs without explosions -/

/-- No operation of a program, at whatever depth, explodes values. -/
def ExplosionFree : Program → Prop :=
  Everywhere fun program => ∀ op ∈ program, op.code ≠ .explode

end Program

namespace Evaluation

/-- An operation that does not explode values reports no explosion if the programs inside it do not. -/
theorem exploded_step_eq_false {inner : Runner} {op : Op} (hcode : op.code ≠ .explode)
    (hinner : ∀ part ∈ op.parts, ∀ context evaluation,
      inner part context = .ok evaluation → evaluation.exploded = false)
    {context : Context} {evaluation : Evaluation} (h : step inner op context = .ok evaluation) :
    evaluation.exploded = false := by
  cases op with
  | currentContext | literal =>
    obtain rfl := Except.ok.inj h
    rfl
  | pick | index =>
    obtain ⟨values, -, rfl⟩ := Traverse.map_eq_ok_iff.mp h
    rfl
  | slice start stop strict =>
    rw [step] at h
    split at h
    · cases h
    · obtain ⟨values, -, rfl⟩ := Traverse.map_eq_ok_iff.mp h
      rfl
  | explode strict => exact absurd rfl hcode
  | createArray elements =>
    obtain ⟨parts, hparts, rfl⟩ := Traverse.map_eq_ok_iff.mp h
    refine List.any_eq_false.mpr fun part hpart => ?_
    obtain ⟨program, hprogram, hresult⟩ := Traverse.exists_of_mem_mapM hparts hpart
    simp [hinner program hprogram context part hresult]
  | createObject entries =>
    obtain ⟨parts, hparts, rfl⟩ := Traverse.map_eq_ok_iff.mp h
    refine List.any_eq_false.mpr fun part hpart => ?_
    obtain ⟨entry, hentry, hfield⟩ := Traverse.exists_of_mem_mapM hparts hpart
    obtain ⟨result, hresult, rfl⟩ := Traverse.map_eq_ok_iff.mp hfield
    simp [hinner entry.2 (Op.mem_parts_createObject hentry) context result hresult]
  | pipe source target =>
    obtain ⟨before, hbefore, h⟩ := Traverse.bind_eq_ok_iff.mp h
    obtain ⟨branches, hbranches, rfl⟩ := Traverse.map_eq_ok_iff.mp h
    refine Bool.or_eq_false_iff.mpr ⟨hinner source (by simp) context before hbefore, ?_⟩
    refine List.any_eq_false.mpr fun branch hbranch => ?_
    obtain ⟨value, -, hresult⟩ := Traverse.exists_of_mem_mapM hbranches hbranch
    simp [hinner target (by simp) [value] branch hresult]

/-- A program reports no explosion if its operations do not. -/
theorem exploded_steps_eq_false {inner : Runner} {program : Program}
    (hops : ∀ op ∈ program, ∀ context evaluation,
      step inner op context = .ok evaluation → evaluation.exploded = false)
    {context : Context} {evaluation : Evaluation}
    (h : steps inner program context = .ok evaluation) : evaluation.exploded = false := by
  induction program generalizing context evaluation with
  | nil =>
    obtain rfl := Except.ok.inj h
    rfl
  | cons op rest ih =>
    obtain ⟨hop, hrest⟩ := List.forall_mem_cons.mp hops
    obtain ⟨first, hfirst, h⟩ := Traverse.bind_eq_ok_iff.mp h
    obtain ⟨last, hlast, rfl⟩ := Traverse.map_eq_ok_iff.mp h
    exact Bool.or_eq_false_iff.mpr ⟨hop context first hfirst, ih hrest hlast⟩

/-- A program without explosions reports none. -/
theorem exploded_eq_false (program : Program) :
    program.ExplosionFree → ∀ context evaluation, program.meaning context = .ok evaluation →
      evaluation.exploded = false := by
  refine Program.induction
    (P := fun op => op.code ≠ .explode → (∀ part ∈ op.parts, Program.ExplosionFree part) →
      ∀ context evaluation, step Program.meaning op context = .ok evaluation →
        evaluation.exploded = false)
    (Q := fun program => program.ExplosionFree → ∀ context evaluation,
      program.meaning context = .ok evaluation → evaluation.exploded = false)
    ?_ ?_ program
  · intro op hparts hcode hfree context evaluation
    exact exploded_step_eq_false hcode fun part hpart => hparts part hpart (hfree part hpart)
  · intro program hops hfree context evaluation h
    rw [Program.meaning_eq_steps] at h
    exact exploded_steps_eq_false
      (fun op hop => hops op hop (hfree.here op hop) fun _ => hfree.inside hop) h

end Evaluation

namespace Program

open Evaluation Traced

/-! ## Evaluations -/

/-- An evaluation tells whether it has exploded a value. -/
theorem signals_trace (program : Program) (context : Context) (options : Options) :
    Signals False (program.trace context options) fun evaluation => evaluation.exploded = true := by
  unfold trace
  refine (signals_checkDepth _ _).bind fun _ => ?_
  refine (signals_runOps program _ _ _ _).bind fun evaluation => ?_
  refine (signals_log _).bind fun _ => signals_pure ?_
  simp [Event.IsExplosion]

/-- An explosion has started on the way of an evaluation. -/
def Explodes (program : Program) (context : Context) (options : Options) : Prop :=
  ∃ depth inputs, .dispatch .explode depth inputs ∈ (program.trace context options).events

theorem explodes_iff {program : Program} {context : Context} {options : Options} :
    program.Explodes context options ↔
      ∃ event ∈ (program.trace context options).events, event.IsExplosion := by
  constructor
  · rintro ⟨depth, inputs, hevent⟩
    exact ⟨_, hevent, rfl⟩
  · rintro ⟨_ | _ | _ | _, hevent, hexplosion⟩ <;> cases hexplosion
    exact ⟨_, _, hevent⟩

/-- A successful evaluation reports an explosion, with the number of the values that it leaves, exactly if an
operation that explodes values has started somewhere on its way, and it reports none otherwise.  So a program
without such operations never reports an explosion, and one with such an operation outside of the targets of
its pipes always does. -/
theorem explosion_iff_dispatch (program : Program) (context : Context) (options : Options)
    (evaluation : Evaluation) (h : program.evaluate context options = .ok evaluation) :
    (evaluation.explosion = some evaluation.context.length ↔ program.Explodes context options) ∧
    (evaluation.explosion = none ↔ ¬program.Explodes context options) ∧
    (program.ExplosionFree → evaluation.explosion = none) ∧
    ((program.Forces fun op => op.code = .explode) →
      evaluation.explosion = some evaluation.context.length) := by
  have hmeaning := meaning_of_evaluate h
  have hexplodes : evaluation.exploded = true ↔ program.Explodes context options := by
    have hsignals := signals_trace program context options evaluation h
    rwa [false_or, ← explodes_iff] at hsignals
  have hsome : evaluation.explosion = some evaluation.context.length ↔ evaluation.exploded = true := by
    simp [explosion]
  have hnone : evaluation.explosion = none ↔ evaluation.exploded = false := by
    simp [explosion]
  refine ⟨hsome.trans hexplodes, ?_, ?_, ?_⟩
  · rw [hnone, ← hexplodes, Bool.not_eq_true]
  · exact fun hfree => hnone.mpr (exploded_eq_false program hfree context evaluation hmeaning)
  · exact fun hforces => hsome.mpr (exploded_of_forces hforces hmeaning)

/-- An explosion of no values in an entry that is written over, with a literal in the place of what was built,
is reported, and an explosion behind a source without values is not. -/
theorem explosion_iff_dispatch_overwritten :
    evaluate [.createObject [("a", [.explode true]), ("a", [.literal .null])], .literal (.bool true)]
        [] {} = .ok ⟨[.bool true], true⟩ ∧
      Evaluation.explosion ⟨[.bool true], true⟩ = some 1 ∧
    evaluate [.pipe [.currentContext] [.explode true]] [] {} = .ok ⟨[], false⟩ ∧
      ¬Explodes [.pipe [.currentContext] [.explode true]] [] {} ∧
    evaluate [.literal .null] [] {} = .ok ⟨[.null], false⟩ ∧
      Evaluation.explosion ⟨[.null], false⟩ = none := by
  have hforces : Program.Forces (fun op => op.code = .explode)
      [.createObject [("a", [.explode true]), ("a", [.literal .null])], .literal (.bool true)] := by
    refine ⟨_, List.mem_cons_self, ?_⟩
    have hpart : [Op.explode true] ∈ Op.forcedParts
        (.createObject [("a", [.explode true]), ("a", [.literal .null])]) := List.mem_cons_self
    exact .inside hpart List.mem_cons_self (.here rfl)
  have hfree : ExplosionFree [.literal .null] :=
    ⟨by simp [Op.code], by simp [Op.parts]⟩
  refine ⟨rfl, ?_, rfl, ?_, rfl, ?_⟩
  · exact (explosion_iff_dispatch _ [] {} ⟨[.bool true], true⟩ rfl).2.2.2 hforces
  · exact (explosion_iff_dispatch _ [] {} ⟨[], false⟩ rfl).2.1.mp rfl
  · exact (explosion_iff_dispatch _ [] {} ⟨[.null], false⟩ rfl).2.2.1 hfree

end Program

end JsonFilter
