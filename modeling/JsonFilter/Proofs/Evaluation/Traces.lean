import JsonFilter.Proofs.Evaluation.Visits
import Mathlib.Data.List.Chain

/-!
# The order of events

The events of a run tell how it went: where the depths at which operations start rise, they rise by one, those on the
outermost level name the operations of the program up to the one that fails, and an event of success comes last, if
the evaluation succeeds.

* `Evaluation.Climbs`: depths that start from below and rise by one;
* `Evaluation.climbs_runOps`: those of a run;
* `Evaluation.Announces`, `Program.announces_of_ok`, `Program.announces_of_error`: what starts on the outermost level;
* `Program.notes_trace`: where the events of an evaluation come from;
* `Program.trace_order`: the events of an evaluation.
-/

namespace JsonFilter

/-! ## Starts -/

namespace Event

/-- The depth at which an operation starts. -/
def depth? : Event → Option Nat
  | dispatch _ depth _ => some depth
  | _ => none

/-- The sort of an operation that starts on the outermost level, and how many values it works on. -/
def outermost? : Event → Option (Opcode × Nat)
  | dispatch code 0 inputs => some (code, inputs)
  | _ => none

/-- An event tells that a whole evaluation has succeeded. -/
def IsComplete : Event → Prop
  | complete .. => True
  | _ => False

theorem outermost?_eq_none {event : Event} (h : ∀ depth ∈ event.depth?, 0 < depth) :
    event.outermost? = none := by
  cases event with
  | dispatch code depth inputs =>
    obtain ⟨below, rfl⟩ := Nat.exists_eq_succ_of_ne_zero (Nat.ne_of_gt (h depth rfl))
    rfl
  | _ => rfl

end Event

namespace Evaluation

/-- The depths at which operations start, in order. -/
def depths (events : List Event) : List Nat :=
  events.filterMap Event.depth?

/-- The operations that start on the outermost level, in order, each with the number of values that it works on. -/
def starts (events : List Event) : List (Opcode × Nat) :=
  events.filterMap Event.outermost?

/-! ## Depths that rise by one -/

/-- The depths at which operations start are not below some level, at which the first one starts, and each is at most
one more than the depth before it. -/
structure Climbs (low : Nat) (events : List Event) : Prop where
  le : ∀ depth ∈ depths events, low ≤ depth
  head : ∀ depth ∈ (depths events).head?, depth = low
  chain : (depths events).IsChain fun depth next => next ≤ depth + 1

variable {low : Nat} {events : List Event}

/-- Events with which no operation starts. -/
theorem climbs_of_depths_eq_nil (h : depths events = []) : Climbs low events := by
  constructor <;> rw [h]
  · exact nofun
  · exact nofun
  · exact .nil

theorem Climbs.append {later : List Event} (h : Climbs low events) (hlater : Climbs low later) :
    Climbs low (events ++ later) := by
  have happend : depths (events ++ later) = depths events ++ depths later := List.filterMap_append
  constructor <;> rw [happend]
  · exact List.forall_mem_append.mpr ⟨h.le, hlater.le⟩
  · rw [List.head?_append]
    cases hhead : (depths events).head? with
    | none => exact hlater.head
    | some depth =>
      rintro _ ⟨⟩
      exact h.head depth hhead
  · refine h.chain.append hlater.chain fun depth hdepth next hnext => ?_
    have hlow := h.le depth (List.mem_of_getLast? hdepth)
    have hhead := hlater.head next hnext
    omega

/-- What starts inside an operation starts one level above it. -/
theorem Climbs.dispatch (h : Climbs (low + 1) events) (code : Opcode) (inputs : Nat) :
    Climbs low (.dispatch code low inputs :: events) := by
  have hcons : depths (.dispatch code low inputs :: events) = low :: depths events := rfl
  constructor <;> rw [hcons]
  · exact List.forall_mem_cons.mpr ⟨Nat.le_refl low, fun depth hdepth => Nat.le_of_succ_le (h.le depth hdepth)⟩
  · rintro _ ⟨⟩
    rfl
  · exact List.isChain_cons.mpr ⟨fun next hnext => Nat.le_of_eq (h.head next hnext), h.chain⟩

/-- Nothing starts on the outermost level inside an operation. -/
theorem Climbs.starts_eq_nil (h : Climbs (low + 1) events) : starts events = [] := by
  refine List.filterMap_eq_nil_iff.mpr fun event hevent => Event.outermost?_eq_none fun depth hdepth => ?_
  have hle := h.le depth (List.mem_filterMap.mpr ⟨event, hevent, hdepth⟩)
  omega

/-! ## The depths of a run -/

section Runs

variable {α β : Type}

theorem climbs_bind {x : Traced α} {next : α → Traced β} (hx : Climbs low x.events)
    (hnext : ∀ a, Climbs low (next a).events) : Climbs low (x >>= next).events := by
  cases h : x.outcome with
  | error e =>
    rw [Traced.bind_of_error h]
    exact hx
  | ok a =>
    rw [Traced.bind_of_ok h]
    exact hx.append (hnext a)

theorem climbs_mapM {f : α → Traced β} {items : List α} (h : ∀ item ∈ items, Climbs low (f item).events) :
    Climbs low (items.mapM f).events := by
  induction items with
  | nil => exact climbs_of_depths_eq_nil rfl
  | cons item rest ih =>
    obtain ⟨hitem, hrest⟩ := List.forall_mem_cons.mp h
    rw [List.mapM_cons]
    exact climbs_bind hitem fun b => climbs_bind (ih hrest) fun bs => climbs_of_depths_eq_nil rfl

theorem climbs_accessAll (access : Access) (strict : Bool) (apply : Value → Option (List Value))
    (context : Context) : Climbs low (accessAll access strict apply context).events := by
  refine climbs_of_depths_eq_nil (List.filterMap_eq_nil_iff.mpr fun event hmem => ?_)
  obtain ⟨kind, rfl⟩ := exists_of_mem_accessAll hmem
  rfl

/-- The depths of an operation rise by one from the level above it, if those of the programs inside it do. -/
theorem climbs_runOp {limit depth : Nat} {op : Op}
    (hparts : ∀ part ∈ op.parts, ∀ context, Climbs (depth + 1) (runOps limit (depth + 1) part context).events)
    (context : Context) : Climbs (depth + 1) (runOp limit depth op context).events := by
  have hcheck : Climbs (depth + 1) (checkDepth limit (depth + 1)).events := by
    unfold checkDepth
    split <;> exact climbs_of_depths_eq_nil rfl
  have henter : ∀ part ∈ op.parts, ∀ context,
      Climbs (depth + 1) (enter limit (depth + 1) part context).events :=
    fun part hpart context => climbs_bind hcheck fun _ => hparts part hpart context
  cases op with
  | currentContext | literal =>
    rw [runOp]
    exact climbs_of_depths_eq_nil rfl
  | pick | index | explode =>
    rw [runOp]
    exact climbs_accessAll _ _ _ context
  | slice start stop strict =>
    rw [runOp]
    split
    · exact climbs_of_depths_eq_nil rfl
    · exact climbs_accessAll _ _ _ context
  | createArray elements =>
    rw [runOp, runElements_eq_mapM]
    exact climbs_mapM fun part hpart => henter part hpart context
  | createObject entries =>
    rw [runOp_createObject, runEntries_eq_mapM]
    refine climbs_bind (climbs_mapM fun entry hentry => ?_) fun parts => climbs_of_depths_eq_nil rfl
    exact henter entry.2 (Op.mem_parts_createObject hentry) context
  | pipe source target =>
    rw [runOp_pipe]
    refine climbs_bind (henter source (by simp) context) fun before => ?_
    exact climbs_mapM fun value _ => henter target (by simp) [value]

/-- The depths of a run rise by one from that of the program. -/
theorem climbs_runOps (limit : Nat) (program : Program) : ∀ (depth : Nat) (context : Context),
    Climbs depth (runOps limit depth program context).events := by
  refine Program.induction
    (P := fun op => ∀ depth context, Climbs (depth + 1) (runOp limit depth op context).events)
    (Q := fun program => ∀ depth context, Climbs depth (runOps limit depth program context).events)
    ?_ ?_ program
  · exact fun op hparts depth => climbs_runOp fun part hpart => hparts part hpart (depth + 1)
  · intro program hops depth context
    induction program generalizing context with
    | nil =>
      rw [runOps]
      exact climbs_of_depths_eq_nil rfl
    | cons op rest ih =>
      obtain ⟨hop, hrest⟩ := List.forall_mem_cons.mp hops
      rw [runOps, ← bind_assoc]
      refine climbs_bind ?_ fun first => ih hrest first.context
      exact (hop depth context).dispatch op.code context.length

end Runs

/-! ## The outermost level -/

/-- An operation on the outermost level starts alone there. -/
theorem starts_runOps_singleton (limit : Nat) (op : Op) (context : Context) :
    starts (runOps limit 0 [op] context).events = [(op.code, context.length)] := by
  have hop : Climbs 1 (runOp limit 0 op context).events :=
    climbs_runOp (fun part _ => climbs_runOps limit part 1) context
  have hrest : ∀ first : Evaluation, runOps limit 0 [] first.context = pure (quiet first.context) := by
    intro first
    rw [runOps]
  have hevents : (runOps limit 0 [op] context).events =
      .dispatch op.code 0 context.length :: (runOp limit 0 op context).events := by
    cases h : (runOp limit 0 op context).outcome with
    | error e =>
      rw [runOps, Traced.bind_of_ok rfl, Traced.bind_of_error h]
      rfl
    | ok first =>
      rw [runOps_cons_of_ok h, hrest]
      exact List.append_nil _
  rw [hevents]
  exact congrArg _ hop.starts_eq_nil

/-- What has started on the outermost level is some operations in order, each with as many values as those in front
of it leave of the context. -/
structure Announces (options : Options) (context : Context) (program : Program)
    (started : List (Opcode × Nat)) : Prop where
  length : started.length = program.length
  start : ∀ (before : Program) (op : Op) (after : Program), program = before ++ op :: after →
    ∃ first, before.evaluate context options = .ok first ∧
      started[before.length]? = some (op.code, first.context.length)

theorem announces_nil (options : Options) (context : Context) : Announces options context [] [] where
  length := rfl
  start := by
    intro before op after h
    cases before <;> cases h

/-- One more operation starts with what the others leave. -/
theorem Announces.concat {options : Options} {context : Context} {program : Program}
    {started : List (Opcode × Nat)} (h : Announces options context program started) {first : Evaluation}
    (hfirst : program.evaluate context options = .ok first) (op : Op) :
    Announces options context (program ++ [op]) (started ++ [(op.code, first.context.length)]) where
  length := by rw [List.length_append, List.length_append, h.length]; rfl
  start := by
    intro before other after hprogram
    rcases List.eq_nil_or_concat after with rfl | ⟨rest, last, rfl⟩
    · obtain ⟨rfl, hop⟩ := List.append_inj' hprogram rfl
      obtain rfl := (List.cons.inj hop).1
      refine ⟨first, hfirst, ?_⟩
      rw [← h.length]
      exact List.getElem?_concat_length
    · rw [List.concat_eq_append, ← List.cons_append, ← List.append_assoc] at hprogram
      obtain ⟨rfl, -⟩ := List.append_inj' hprogram rfl
      obtain ⟨left, hleft, hstart⟩ := h.start before other rest rfl
      refine ⟨left, hleft, ?_⟩
      rw [List.getElem?_append_left, hstart]
      exact (List.getElem?_eq_some_iff.mp hstart).1

end Evaluation

namespace Program

open Evaluation Traced

variable {program : Program} {context : Context} {options : Options}

/-- If a program succeeds, then all its operations start, and if it fails, then those up to one that fails. -/
theorem announces_runOps (program : Program) (context : Context) (options : Options) :
    (∀ evaluation, program.evaluate context options = .ok evaluation →
      Announces options context program (starts (runOps options.maxDepth 0 program context).events)) ∧
    ∀ e, program.evaluate context options = .error e →
      ∃ (before : Program) (op : Op) (after : Program) (first : Evaluation),
        program = before ++ op :: after ∧
        before.evaluate context options = .ok first ∧
        evaluate [op] first.context options = .error e ∧
        Announces options context (before ++ [op])
          (starts (runOps options.maxDepth 0 program context).events) := by
  -- from behind: an operation that is added at the end starts only if those in front of it have succeeded
  induction program using List.reverseRecOn with
  | nil =>
    rw [runOps]
    refine ⟨fun _ _ => announces_nil options context, fun e h => ?_⟩
    cases h
  | append_singleton program op ih =>
    obtain ⟨ihok, iherror⟩ := ih
    rw [runOps_append, evaluate_append]
    cases hprogram : evaluate program context options with
    | error e =>
      obtain ⟨before, failing, after, first, rfl, hbefore, hfailing, hstarts⟩ := iherror e hprogram
      rw [evaluate_eq_runOps] at hprogram
      rw [bind_of_error hprogram, Traverse.error_bind]
      refine ⟨fun evaluation h => ?_, fun e' h => ?_⟩
      · cases h
      · obtain rfl := Except.error.inj h
        exact ⟨before, failing, after ++ [op], first, by simp, hbefore, hfailing, hstarts⟩
    | ok first =>
      have hstarts := (ihok first hprogram).concat hprogram op
      have hrun := hprogram
      rw [evaluate_eq_runOps] at hrun
      have happend : starts ((runOps options.maxDepth 0 program context).events ++
          (runOps options.maxDepth 0 [op] first.context).events) =
          starts (runOps options.maxDepth 0 program context).events ++ [(op.code, first.context.length)] := by
        rw [← starts_runOps_singleton]
        exact List.filterMap_append
      rw [bind_of_ok hrun, map_events, happend, Traverse.ok_bind]
      refine ⟨fun _ _ => hstarts, fun e he => ?_⟩
      refine ⟨program, op, [], first, rfl, hprogram, ?_, hstarts⟩
      cases hop : evaluate [op] first.context options with
      | error e' =>
        rw [hop] at he
        exact he
      | ok last =>
        rw [hop] at he
        cases he

/-! ## Whole evaluations -/

theorem trace_eq (program : Program) (context : Context) (options : Options) :
    program.trace context options =
      runOps options.maxDepth 0 program context >>= fun evaluation =>
        log (.complete evaluation.context.length evaluation.exploded) >>= fun _ => pure evaluation := by
  rw [trace, checkDepth, if_neg (Nat.not_lt_zero _), pure_bind]

/-- If an evaluation succeeds, then this is its last event. -/
theorem events_of_ok {evaluation : Evaluation} (h : program.evaluate context options = .ok evaluation) :
    (program.trace context options).events =
      (runOps options.maxDepth 0 program context).events ++
        [.complete evaluation.context.length evaluation.exploded] := by
  rw [evaluate_eq_runOps] at h
  rw [trace_eq, bind_of_ok h]
  rfl

theorem events_of_error {e : EvalError} (h : program.evaluate context options = .error e) :
    (program.trace context options).events = (runOps options.maxDepth 0 program context).events := by
  rw [evaluate_eq_runOps] at h
  rw [trace_eq, bind_of_error h]

/-- Every event of a run is accounted for. -/
theorem accounts_of_notes {front : List Event} {event : Event}
    (h : Notes (runOps options.maxDepth 0 program context) front event) :
    Accounts options.maxDepth program context front event :=
  Enters.outermost.accounts (notes_enter_iff.mpr ⟨Nat.zero_le _, h⟩)

theorem accounts_of_mem {event : Event}
    (h : event ∈ (runOps options.maxDepth 0 program context).events) :
    ∃ front, Accounts options.maxDepth program context front event := by
  obtain ⟨front, back, hsplit⟩ := List.append_of_mem h
  exact ⟨front, accounts_of_notes ⟨back, hsplit⟩⟩

/-- Each event of an evaluation is one of the run, or tells that the whole has succeeded. -/
theorem notes_trace {front : List Event} {event : Event}
    (h : Notes (program.trace context options) front event) :
    Accounts options.maxDepth program context front event ∨ event.IsComplete := by
  rw [trace_eq] at h
  rcases notes_bind_iff.mp h with h | ⟨evaluation, -, inner, rfl, hcomplete⟩
  · exact Or.inl (accounts_of_notes h)
  · rcases notes_bind_iff.mp hcomplete with h | ⟨_, _, _, _, h⟩
    · obtain ⟨-, rfl⟩ := notes_log_iff.mp h
      exact Or.inr trivial
    · exact absurd h notes_pure

/-- The starts of operations are where the run comes to them. -/
theorem notes_trace_dispatch_iff {front : List Event} {code : Opcode} {depth inputs : Nat} :
    Notes (program.trace context options) front (.dispatch code depth inputs) ↔
      ∃ op given, Visits options.maxDepth program context front depth op given ∧
        op.code = code ∧ given.length = inputs := by
  constructor
  · intro h
    exact (notes_trace h).elim Accounts.visits False.elim
  · rintro ⟨op, given, hvisits, rfl, rfl⟩
    rw [trace_eq]
    exact notes_bind_iff.mpr (Or.inl (notes_enter_iff.mp hvisits.notes).2)

theorem climbs_trace (program : Program) (context : Context) (options : Options) :
    Climbs 0 (program.trace context options).events := by
  rw [trace_eq]
  exact climbs_bind (climbs_runOps options.maxDepth program 0 context)
    fun evaluation => climbs_of_depths_eq_nil rfl

/-- A run on its own does not tell that a whole evaluation has succeeded. -/
theorem not_isComplete_of_mem {event : Event}
    (h : event ∈ (runOps options.maxDepth 0 program context).events) : ¬ event.IsComplete := by
  obtain ⟨front, haccounts⟩ := accounts_of_mem h
  cases haccounts with
  | dispatch | dropped | objectsBuilt => exact id

/-- Operations start neither beyond the limit nor beyond the nesting of the program, the first one on the outermost
level, and each at most one level above the one before it.  On the outermost level the operations of the program
start in order, each with as many values as those in front of it leave: all of them if the evaluation succeeds, and
otherwise those up to the one that fails.  Objects are built where an object constructor ends, and the event tells
how many names it has and how many objects it leaves.  An event that tells of the values of the result comes last if
the evaluation succeeds, and nowhere else. -/
theorem trace_order (program : Program) (context : Context) (options : Options) :
    (∀ code depth inputs, .dispatch code depth inputs ∈ (program.trace context options).events →
      depth ≤ min options.maxDepth program.nesting) ∧
    (∀ depth ∈ (depths (program.trace context options).events).head?, depth = 0) ∧
    (depths (program.trace context options).events).IsChain (fun depth next => next ≤ depth + 1) ∧
    (∀ evaluation, program.evaluate context options = .ok evaluation →
      Announces options context program (starts (program.trace context options).events) ∧
      ∃ front, (program.trace context options).events =
          front ++ [.complete evaluation.context.length evaluation.exploded] ∧
        ∀ event ∈ front, ¬ event.IsComplete) ∧
    (∀ e, program.evaluate context options = .error e →
      (∃ (before : Program) (op : Op) (after : Program) (first : Evaluation),
        program = before ++ op :: after ∧
        before.evaluate context options = .ok first ∧
        evaluate [op] first.context options = .error e ∧
        Announces options context (before ++ [op]) (starts (program.trace context options).events)) ∧
      ∀ event ∈ (program.trace context options).events, ¬ event.IsComplete) ∧
    (∀ front keys objects back,
      (program.trace context options).events = front ++ .objectsBuilt keys objects :: back →
      ∃ opening depth entries given inner built,
        front = opening ++ .dispatch .createObject depth given.length :: inner ∧
        Visits options.maxDepth program context opening depth (.createObject entries) given ∧
        runOp options.maxDepth depth (.createObject entries) given =
          ⟨inner ++ [.objectsBuilt keys objects], .ok built⟩ ∧
        keys = (Fields.keys entries).eraseDups.length ∧ objects = built.context.length) ∧
    ∀ front code depth inputs, Notes (program.trace context options) front (.dispatch code depth inputs) ↔
      ∃ op given, Visits options.maxDepth program context front depth op given ∧
        op.code = code ∧ given.length = inputs := by
  have hclimbs := climbs_trace program context options
  obtain ⟨hok, herror⟩ := announces_runOps program context options
  refine ⟨?_, hclimbs.head, hclimbs.chain, ?_, ?_, ?_, fun front code depth inputs => notes_trace_dispatch_iff⟩
  · intro code depth inputs hmem
    obtain ⟨front, back, hsplit⟩ := List.append_of_mem hmem
    obtain ⟨op, given, hvisits, -, -⟩ := notes_trace_dispatch_iff.mp ⟨back, hsplit⟩
    exact hvisits.depth_le
  · intro evaluation h
    have happend : ∀ events outputs exploded, starts (events ++ [.complete outputs exploded]) = starts events :=
      fun events outputs exploded => List.filterMap_append.trans (List.append_nil _)
    rw [events_of_ok h, happend]
    exact ⟨hok evaluation h, _, rfl, fun event => not_isComplete_of_mem⟩
  · intro e h
    rw [events_of_error h]
    exact ⟨herror e h, fun event => not_isComplete_of_mem⟩
  · intro front keys objects back hsplit
    exact (notes_trace ⟨back, hsplit⟩).elim Accounts.exists_createObject False.elim

/-- Both operations start if the second finds its field, only the first one if it fails, and two entries of one name
build one object. -/
theorem trace_order_objects :
    Announces {} [.array [.null, .bool true]]
        [.createObject [("a", [.explode true]), ("a", [])], .pick "a" true] [(.createObject, 1), (.pick, 1)] ∧
    (∃ (before : Program) (op : Op) (after : Program) (first : Evaluation),
      [.pick "a" true, .explode true] = before ++ op :: after ∧
      before.evaluate [.null] {} = .ok first ∧
      evaluate [op] first.context {} = .error (.typeMismatch (.pick "a") .null) ∧
      Announces {} [.null] (before ++ [op]) [(.pick, 1)]) ∧
    ∃ (opening : List Event) (depth : Nat) (entries : Fields Program) (given : Context) (inner : List Event)
      (built : Evaluation),
      [.dispatch .createObject 0 1, .dispatch .explode 1 1] =
        opening ++ .dispatch .createObject depth given.length :: inner ∧
      1 = (Fields.keys entries).eraseDups.length ∧ 1 = built.context.length := by
  refine ⟨?_, ?_, ?_⟩
  · obtain ⟨-, -, -, hok, -⟩ := trace_order
      [.createObject [("a", [.explode true]), ("a", [])], .pick "a" true] [.array [.null, .bool true]] {}
    exact (hok ⟨[.array [.null, .bool true]], true⟩ rfl).1
  · obtain ⟨-, -, -, -, herror, -⟩ := trace_order [.pick "a" true, .explode true] [.null] {}
    exact (herror (.typeMismatch (.pick "a") .null) rfl).1
  · obtain ⟨-, -, -, -, -, hobjects, -⟩ := trace_order
      [.createObject [("a", [.explode true]), ("a", [])], .pick "a" true] [.array [.null, .bool true]] {}
    obtain ⟨opening, depth, entries, given, inner, built, hfront, -, -, hkeys, hbuilt⟩ :=
      hobjects [.dispatch .createObject 0 1, .dispatch .explode 1 1] 1 1
        [.dispatch .pick 0 1, .complete 1 true] rfl
    exact ⟨opening, depth, entries, given, inner, built, hfront, hkeys, hbuilt⟩

end Program

end JsonFilter
