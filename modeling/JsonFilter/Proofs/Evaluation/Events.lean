import JsonFilter.Proofs.Evaluation.Steps
import JsonFilter.Proofs.Program.Induction

/-!
# Where events come from

An event of a sequence of computations belongs to one of them, and the events of those that have succeeded before
it come first.  So an event of an operation is its own, or belongs to one of the programs that the operation calls.

* `Traced.Notes`: a computation notes an event after some others;
* `Traced.notes_bind_iff`, `Traced.notes_mapM_iff`: what sequences and traversals note;
* `Evaluation.Calls`: the programs that an operation calls, and what it hands to them;
* `Evaluation.notes_runOp`, `Evaluation.notes_runOp_of_calls`: what an operation notes;
* `Evaluation.notes_runOps_iff`: what a program notes.
-/

namespace JsonFilter

namespace Traced

variable {α β : Type}

/-! ## Sequences and traversals -/

/-- A computation notes an event after some others. -/
def Notes (x : Traced α) (front : List Event) (event : Event) : Prop :=
  ∃ back, x.events = front ++ event :: back

variable {front : List Event} {event : Event}

theorem notes_pure {a : α} : ¬ Notes (pure a : Traced α) front event := by
  rintro ⟨back, h⟩
  cases front <;> cases h

theorem notes_fail {e : EvalError} : ¬ Notes (fail e : Traced α) front event := by
  rintro ⟨back, h⟩
  cases front <;> cases h

theorem notes_log_iff {noted : Event} : Notes (log noted) front event ↔ front = [] ∧ event = noted := by
  constructor
  · rintro ⟨back, h⟩
    cases front with
    | nil => exact ⟨rfl, (List.cons.inj h).1.symm⟩
    | cons first rest => simp at h
  · rintro ⟨rfl, rfl⟩
    exact ⟨[], rfl⟩

theorem notes_map_iff {f : α → β} {x : Traced α} : Notes (f <$> x) front event ↔ Notes x front event :=
  Iff.rfl

/-- An event of a sequence belongs to the first computation, or comes after all of its events. -/
theorem notes_bind_iff {x : Traced α} {next : α → Traced β} :
    Notes (x >>= next) front event ↔ Notes x front event ∨
      ∃ a, x.outcome = .ok a ∧ ∃ inner, front = x.events ++ inner ∧ Notes (next a) inner event := by
  cases hx : x.outcome with
  | error e =>
    rw [bind_of_error hx]
    exact ⟨Or.inl, fun h => h.elim id (fun ⟨_, h, _⟩ => nomatch h)⟩
  | ok a =>
    rw [bind_of_ok hx]
    constructor
    · rintro ⟨back, h⟩
      rcases List.append_eq_append_iff.mp h with ⟨mid, hfront, hnext⟩ | ⟨mid, hx, hmid⟩
      · exact Or.inr ⟨a, rfl, mid, hfront, back, hnext⟩
      · rcases mid with _ | ⟨first, rest⟩
        · rw [List.append_nil] at hx
          exact Or.inr ⟨a, rfl, [], by rw [hx, List.append_nil], back, hmid.symm⟩
        · obtain ⟨rfl, -⟩ := List.cons.inj hmid
          exact Or.inl ⟨rest, hx⟩
    · rintro (⟨back, h⟩ | ⟨_, ⟨⟩, inner, rfl, back, h⟩)
      · exact ⟨back ++ (next a).events, by rw [h, List.append_assoc, List.cons_append]⟩
      · exact ⟨back, by rw [h, List.append_assoc]⟩

/-- An event of a traversal belongs to one of the items, and those before it have succeeded. -/
theorem notes_mapM_iff {f : α → Traced β} {items : List α} :
    Notes (items.mapM f) front event ↔ ∃ before item after inner, items = before ++ item :: after ∧
      (∀ passed ∈ before, ∃ b, (f passed).outcome = .ok b) ∧
      front = (before.flatMap fun passed => (f passed).events) ++ inner ∧ Notes (f item) inner event := by
  induction items generalizing front with
  | nil =>
    constructor
    · exact fun h => absurd h notes_pure
    · rintro ⟨before, item, after, inner, h, -⟩
      cases before <;> cases h
  | cons item rest ih =>
    have hrest : ∀ b inner, Notes (rest.mapM f >>= fun bs => pure (b :: bs)) inner event ↔
        Notes (rest.mapM f) inner event := by
      intro b inner
      rw [bind_pure_comp, notes_map_iff]
    rw [List.mapM_cons, notes_bind_iff]
    simp only [hrest, ih]
    constructor
    · rintro (h | ⟨b, hb, _, rfl, before, later, after, inner, rfl, hbefore, rfl, h⟩)
      · exact ⟨[], item, rest, front, rfl, nofun, rfl, h⟩
      · have hpassed := List.forall_mem_cons.mpr ⟨⟨b, hb⟩, hbefore⟩
        refine ⟨item :: before, later, after, inner, rfl, hpassed, ?_, h⟩
        rw [List.flatMap_cons, List.append_assoc]
    · rintro ⟨before, later, after, inner, hitems, hbefore, rfl, h⟩
      rcases before with _ | ⟨first, others⟩
      · obtain ⟨rfl, rfl⟩ := List.cons.inj hitems
        exact Or.inl h
      · obtain ⟨rfl, rfl⟩ := List.cons.inj hitems
        obtain ⟨⟨b, hb⟩, hothers⟩ := List.forall_mem_cons.mp hbefore
        refine Or.inr ⟨b, hb, _, ?_, others, later, after, inner, rfl, hothers, rfl, h⟩
        rw [List.flatMap_cons, List.append_assoc]

end Traced

namespace Evaluation

open Traced

variable {limit depth : Nat} {context : Context} {front : List Event} {event : Event}

/-! ## Programs inside an operation -/

/-- An access notes only which values it drops. -/
theorem notes_accessAll {access : Access} {strict : Bool} {apply : Value → Option (List Value)}
    (h : Notes (accessAll access strict apply context) front event) :
    ∃ access kind, event = .dropped access kind := by
  obtain ⟨back, h⟩ := h
  have hmem : event ∈ (accessAll access strict apply context).events :=
    h ▸ List.mem_append_right _ List.mem_cons_self
  exact ⟨access, exists_of_mem_accessAll hmem⟩

/-- A program that is entered notes nothing below the limit, and otherwise what its operations note. -/
theorem notes_enter_iff {program : Program} :
    Notes (enter limit depth program context) front event ↔
      depth ≤ limit ∧ Notes (runOps limit depth program context) front event := by
  unfold enter checkDepth
  split
  · next h =>
    exact ⟨fun h => absurd h notes_fail, fun ⟨hle, _⟩ => absurd hle (Nat.not_le_of_lt h)⟩
  · next h =>
    rw [pure_bind]
    exact ⟨fun hnotes => ⟨Nat.not_lt.mp h, hnotes⟩, And.right⟩

/-- The events of programs on their contexts, one after another. -/
def callEvents (limit depth : Nat) (calls : List (Program × Context)) : List Event :=
  calls.flatMap fun call => (enter limit depth call.1 call.2).events

/-- An operation on a context, at a depth, calls a program and hands it a context, after some earlier calls. -/
inductive Calls (limit depth : Nat) :
    Op → Context → List (Program × Context) → Program → Context → Prop
  | element (before after : List Program) (part : Program) (context : Context) :
      Calls limit depth (.createArray (before ++ part :: after)) context (before.map (·, context)) part context
  | entry (before after : List (String × Program)) (name : String) (part : Program) (context : Context) :
      Calls limit depth (.createObject (before ++ (name, part) :: after)) context
        (before.map fun entry => (entry.2, context)) part context
  | source (source target : Program) (context : Context) :
      Calls limit depth (.pipe source target) context [] source context
  | target {source : Program} {context : Context} {evaluation : Evaluation} {before after : List Value}
      {value : Value} (hsource : runAt limit (depth + 1) source context = .ok evaluation)
      (houtputs : evaluation.outputs = before ++ value :: after) (target : Program) :
      Calls limit depth (.pipe source target) context ((source, context) :: before.map fun v => (target, [v]))
        target [value]

/-- What an operation calls is one of its parts. -/
theorem Calls.mem_parts {op : Op} {earlier : List (Program × Context)} {part : Program} {given : Context}
    (h : Calls limit depth op context earlier part given) : part ∈ op.parts := by
  cases h with
  | element | entry | source | target => simp

/-- An event of an operation tells that it drops a value or has built its objects, or belongs to a program that the
operation calls after others that have succeeded. -/
theorem notes_runOp {op : Op} (h : Notes (runOp limit depth op context) front event) :
    (∃ access kind, event = .dropped access kind) ∨
    (∃ entries parts, op = .createObject entries ∧
      runEntries limit depth entries context = ⟨front, .ok parts⟩ ∧
      event = .objectsBuilt (candidates parts).length (assemble parts).context.length) ∨
    ∃ earlier part given inner, Calls limit depth op context earlier part given ∧
      (∀ call ∈ earlier, ∃ result, runAt limit (depth + 1) call.1 call.2 = .ok result) ∧
      front = callEvents limit (depth + 1) earlier ++ inner ∧
      Notes (enter limit (depth + 1) part given) inner event := by
  cases op with
  | currentContext | literal =>
    rw [runOp] at h
    exact absurd h notes_pure
  | pick | index | explode =>
    rw [runOp, notes_map_iff] at h
    exact Or.inl (notes_accessAll h)
  | slice start stop strict =>
    rw [runOp] at h
    split at h
    · exact absurd h notes_fail
    · exact Or.inl (notes_accessAll (notes_map_iff.mp h))
  | createArray elements =>
    rw [runOp, runElements_eq_mapM, notes_map_iff] at h
    obtain ⟨before, part, after, inner, rfl, hbefore, rfl, hpart⟩ := notes_mapM_iff.mp h
    refine Or.inr (Or.inr ⟨_, part, context, inner, .element before after part context,
      List.forall_mem_map.mpr hbefore, ?_, hpart⟩)
    rw [callEvents, List.flatMap_map]
  | createObject entries =>
    rw [runOp_createObject] at h
    rcases notes_bind_iff.mp h with hentries | ⟨parts, hparts, inner, rfl, hbuilt⟩
    · rw [runEntries_eq_mapM] at hentries
      obtain ⟨before, ⟨name, part⟩, after, inner, rfl, hbefore, rfl, hpart⟩ := notes_mapM_iff.mp hentries
      refine Or.inr (Or.inr ⟨_, part, context, inner, .entry before after name part context,
        List.forall_mem_map.mpr fun entry hentry => ?_, ?_, notes_map_iff.mp hpart⟩)
      · exact Traverse.exists_map_eq_ok_iff.mp (hbefore entry hentry)
      · rw [callEvents, List.flatMap_map]
        rfl
    · rcases notes_bind_iff.mp hbuilt with hlog | ⟨_, _, _, _, hnone⟩
      · obtain ⟨rfl, rfl⟩ := notes_log_iff.mp hlog
        refine Or.inr (Or.inl ⟨entries, parts, rfl, ?_, rfl⟩)
        rw [List.append_nil]
        exact Traced.ext rfl hparts
      · exact absurd hnone notes_pure
  | pipe source target =>
    rw [runOp_pipe] at h
    rcases notes_bind_iff.mp h with hsource | ⟨evaluation, hevaluation, inner, rfl, htarget⟩
    · exact Or.inr (Or.inr ⟨[], source, context, front, .source source target context, List.forall_mem_nil _,
        rfl, hsource⟩)
    · obtain ⟨before, value, after, inner, houtputs, hbefore, rfl, hvalue⟩ :=
        notes_mapM_iff.mp (notes_map_iff.mp htarget)
      refine Or.inr (Or.inr ⟨_, target, [value], inner, .target hevaluation houtputs target,
        List.forall_mem_cons.mpr ⟨⟨evaluation, hevaluation⟩, List.forall_mem_map.mpr hbefore⟩, ?_, hvalue⟩)
      rw [callEvents, List.flatMap_cons, List.flatMap_map, List.append_assoc]

/-- What a program that is called after others notes, the operation notes. -/
theorem notes_runOp_of_calls {op : Op} {earlier : List (Program × Context)} {part : Program} {given : Context}
    (hcalls : Calls limit depth op context earlier part given)
    (hearlier : ∀ call ∈ earlier, ∃ result, runAt limit (depth + 1) call.1 call.2 = .ok result)
    (h : Notes (enter limit (depth + 1) part given) front event) :
    Notes (runOp limit depth op context) (callEvents limit (depth + 1) earlier ++ front) event := by
  cases hcalls with
  | element before after =>
    rw [runOp, runElements_eq_mapM, notes_map_iff, notes_mapM_iff]
    refine ⟨before, part, after, front, rfl, fun passed hpassed => ?_, ?_, h⟩
    · exact hearlier (passed, context) (List.mem_map_of_mem hpassed)
    · rw [callEvents, List.flatMap_map]
  | entry before after name =>
    rw [runOp_createObject, runEntries_eq_mapM, notes_bind_iff, notes_mapM_iff]
    refine Or.inl ⟨before, (name, part), after, front, rfl, fun entry hentry => ?_, ?_, notes_map_iff.mpr h⟩
    · exact Traverse.exists_map_eq_ok_iff.mpr (List.forall_mem_map.mp hearlier entry hentry)
    · rw [callEvents, List.flatMap_map]
      rfl
  | source =>
    rw [runOp_pipe, notes_bind_iff]
    exact Or.inl h
  | target hsource houtputs =>
    rw [runOp_pipe, notes_bind_iff]
    obtain ⟨-, hbefore⟩ := List.forall_mem_cons.mp hearlier
    refine Or.inr ⟨_, hsource, _, ?_, notes_map_iff.mpr (notes_mapM_iff.mpr
      ⟨_, _, _, front, houtputs, fun passed hpassed => ?_, rfl, h⟩)⟩
    · rw [callEvents, List.flatMap_cons, List.flatMap_map, List.append_assoc]
    · exact hbefore (part, [passed]) (List.mem_map_of_mem hpassed)

/-- After an operation that succeeds, the others run on what it leaves. -/
theorem runOps_cons_of_ok {op : Op} {first : Evaluation} (h : (runOp limit depth op context).outcome = .ok first)
    (rest : Program) :
    runOps limit depth (op :: rest) context =
      ⟨.dispatch op.code depth context.length :: (runOp limit depth op context).events ++
          (runOps limit depth rest first.context).events,
        first.andThen <$> (runOps limit depth rest first.context).outcome⟩ := by
  rw [runOps, bind_of_ok rfl, bind_of_ok h]
  rfl

/-- An event of a program tells that an operation starts, or belongs to it, and the operations in front of it have
succeeded. -/
theorem notes_runOps_iff {program : Program} :
    Notes (runOps limit depth program context) front event ↔
      ∃ before op after first inner, program = before ++ op :: after ∧
        (runOps limit depth before context).outcome = .ok first ∧
        front = (runOps limit depth before context).events ++ inner ∧
        (inner = [] ∧ event = .dispatch op.code depth first.context.length ∨
          ∃ within, inner = .dispatch op.code depth first.context.length :: within ∧
            Notes (runOp limit depth op first.context) within event) := by
  constructor
  · intro h
    -- what the first operation leaves is the context of the others, and its events stand in front of theirs
    induction program generalizing context front with
    | nil =>
      rw [runOps] at h
      exact absurd h notes_pure
    | cons op rest ih =>
      have hnil : runOps limit depth [] context = pure (quiet context) := by rw [runOps]
      rw [runOps] at h
      rcases notes_bind_iff.mp h with hstart | ⟨_, -, within, rfl, hrun⟩
      · obtain ⟨rfl, rfl⟩ := notes_log_iff.mp hstart
        exact ⟨[], op, rest, quiet context, [], rfl, by rw [hnil]; rfl, by rw [hnil]; rfl, Or.inl ⟨rfl, rfl⟩⟩
      rcases notes_bind_iff.mp hrun with hop | ⟨first, hfirst, others, rfl, hrest⟩
      · exact ⟨[], op, rest, quiet context, _, rfl, by rw [hnil]; rfl, by rw [hnil]; rfl,
          Or.inr ⟨within, rfl, hop⟩⟩
      · obtain ⟨before, later, after, last, inner, rfl, hlast, rfl, hevent⟩ := ih (notes_map_iff.mp hrest)
        have hcons := runOps_cons_of_ok hfirst before
        refine ⟨op :: before, later, after, first.andThen last, inner, rfl, ?_, ?_, hevent⟩
        · rw [hcons, hlast]
          rfl
        · rw [hcons]
          simp [Traced.log]
  · rintro ⟨before, op, after, first, inner, rfl, hfirst, rfl, h⟩
    rw [runOps_append, notes_bind_iff]
    refine Or.inr ⟨first, hfirst, inner, rfl, ?_⟩
    rw [notes_map_iff, runOps, notes_bind_iff, notes_log_iff]
    rcases h with ⟨rfl, rfl⟩ | ⟨within, rfl, h⟩
    · exact Or.inl ⟨rfl, rfl⟩
    · exact Or.inr ⟨(), rfl, within, rfl, notes_bind_iff.mpr (Or.inl h)⟩

end Evaluation

end JsonFilter
