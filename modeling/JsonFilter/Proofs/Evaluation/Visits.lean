import JsonFilter.Proofs.Evaluation.Events
import JsonFilter.Proofs.Fields

/-!
# What a run comes to

A run of a program enters the programs inside it, each on a context and after certain events, and comes to their
operations.  All events of the run are accounted for in this way.

* `Evaluation.Enters`, `Evaluation.Visits`: the programs that a run enters and the operations that it comes to;
* `Evaluation.Enters.notes`: what is entered notes its events where it stands;
* `Evaluation.Accounts`, `Evaluation.Enters.accounts`: where each event comes from;
* `Evaluation.Accounts.exists_createObject`: what the building of objects tells.
-/

namespace JsonFilter

namespace Evaluation

open Traced

variable {limit depth : Nat} {program part : Program} {op : Op} {context given : Context} {front : List Event}
  {event : Event}

/-! ## Programs and operations on the way -/

/-- A run of a program on a context enters a program, at a depth, with a context that is handed to it, after some
events: it is the program itself, or an operation of a program that the run has entered calls it, and the limit has
let this program in. -/
inductive Enters (limit : Nat) (program : Program) (context : Context) :
    List Event → Nat → Program → Context → Prop
  | outermost : Enters limit program context [] 0 program context
  | inside {front : List Event} {depth : Nat} {before after part : Program} {op : Op} {given handed : Context}
      {first : Evaluation} {earlier : List (Program × Context)}
      (outer : Enters limit program context front depth (before ++ op :: after) given) (hdepth : depth ≤ limit)
      (hbefore : (runOps limit depth before given).outcome = .ok first)
      (hcalls : Calls limit depth op first.context earlier part handed)
      (hearlier : ∀ call ∈ earlier, ∃ result, runAt limit (depth + 1) call.1 call.2 = .ok result) :
      Enters limit program context
        (front ++ (runOps limit depth before given).events ++
          .dispatch op.code depth first.context.length :: callEvents limit (depth + 1) earlier)
        (depth + 1) part handed

/-- A run of a program on a context comes, at a depth and after some events, to an operation and a context that this
works on: the limit has let its program in, and the operations in front of it have succeeded. -/
inductive Visits (limit : Nat) (program : Program) (context : Context) :
    List Event → Nat → Op → Context → Prop
  | intro {front : List Event} {depth : Nat} {before after : Program} {op : Op} {given : Context}
      {first : Evaluation} (outer : Enters limit program context front depth (before ++ op :: after) given)
      (hdepth : depth ≤ limit) (hbefore : (runOps limit depth before given).outcome = .ok first) :
      Visits limit program context (front ++ (runOps limit depth before given).events) depth op first.context

/-- Where a run comes to an operation, it enters what the operation calls. -/
theorem Visits.enters {handed : Context} {earlier : List (Program × Context)}
    (h : Visits limit program context front depth op given)
    (hcalls : Calls limit depth op given earlier part handed)
    (hearlier : ∀ call ∈ earlier, ∃ result, runAt limit (depth + 1) call.1 call.2 = .ok result) :
    Enters limit program context
      (front ++ .dispatch op.code depth given.length :: callEvents limit (depth + 1) earlier)
      (depth + 1) part handed := by
  obtain ⟨outer, hdepth, hbefore⟩ := h
  exact outer.inside hdepth hbefore hcalls hearlier

/-- What is entered at a depth nests less deep than the whole by this depth. -/
theorem Enters.nesting_le (h : Enters limit program context front depth part given) :
    depth + part.nesting ≤ program.nesting := by
  induction h with
  | outermost => exact Nat.le_of_eq (Nat.zero_add _)
  | @inside front depth before after part op given handed first earlier outer hdepth hbefore hcalls hearlier ih =>
    have hpart := Op.nesting_part_lt hcalls.mem_parts
    have hop : op.nesting ≤ Program.nesting (before ++ op :: after) :=
      Program.nesting_op_le (List.mem_append_right before List.mem_cons_self)
    omega

/-- A run comes to no operation beyond the limit or the nesting of its program. -/
theorem Visits.depth_le (h : Visits limit program context front depth op given) :
    depth ≤ min limit program.nesting := by
  obtain ⟨outer, hdepth, -⟩ := h
  have hnesting := outer.nesting_le
  omega

/-! ## The events of what is entered -/

/-- What is entered notes its events after those that came before it. -/
theorem Enters.notes (h : Enters limit program context front depth part given) {inner : List Event}
    (hnotes : Notes (enter limit depth part given) inner event) :
    Notes (enter limit 0 program context) (front ++ inner) event := by
  induction h generalizing inner with
  | outermost => exact hnotes
  | inside outer hdepth hbefore hcalls hearlier ih =>
    have hop := notes_runOp_of_calls hcalls hearlier hnotes
    have houter := ih (notes_enter_iff.mpr ⟨hdepth, notes_runOps_iff.mpr
      ⟨_, _, _, _, _, rfl, hbefore, rfl, Or.inr ⟨_, rfl, hop⟩⟩⟩)
    simpa using houter

/-- Where a run comes to an operation, it notes that this starts. -/
theorem Visits.notes (h : Visits limit program context front depth op given) :
    Notes (enter limit 0 program context) front (.dispatch op.code depth given.length) := by
  obtain ⟨outer, hdepth, hbefore⟩ := h
  exact outer.notes (notes_enter_iff.mpr ⟨hdepth, notes_runOps_iff.mpr
    ⟨_, _, _, _, [], rfl, hbefore, (List.append_nil _).symm, Or.inl ⟨rfl, rfl⟩⟩⟩)

/-- Where an event of a run that comes after some others belongs: an operation starts or drops a value, or an object
constructor has built its objects, after its programs have run. -/
inductive Accounts (limit : Nat) (program : Program) (context : Context) : List Event → Event → Prop
  | dispatch {front : List Event} {depth : Nat} {op : Op} {given : Context}
      (h : Visits limit program context front depth op given) :
      Accounts limit program context front (.dispatch op.code depth given.length)
  | dropped {front inner : List Event} {depth : Nat} {op : Op} {given : Context}
      (h : Visits limit program context front depth op given) (access : Access) (kind : Kind) :
      Accounts limit program context (front ++ .dispatch op.code depth given.length :: inner)
        (.dropped access kind)
  | objectsBuilt {front inner : List Event} {depth : Nat} {entries : Fields Program} {given : Context}
      {parts : Fields Evaluation} (h : Visits limit program context front depth (.createObject entries) given)
      (hparts : runEntries limit depth entries given = ⟨inner, .ok parts⟩) :
      Accounts limit program context (front ++ .dispatch .createObject depth given.length :: inner)
        (.objectsBuilt (candidates parts).length (assemble parts).context.length)

theorem Accounts.visits {code : Opcode} {inputs : Nat}
    (h : Accounts limit program context front (.dispatch code depth inputs)) :
    ∃ op given, Visits limit program context front depth op given ∧ op.code = code ∧ given.length = inputs := by
  cases h with
  | dispatch hvisits => exact ⟨_, _, hvisits, rfl, rfl⟩

/-- Objects are built at the end of an object constructor that succeeds, and the event tells how many names it has
and how many objects it leaves. -/
theorem Accounts.exists_createObject {keys objects : Nat}
    (h : Accounts limit program context front (.objectsBuilt keys objects)) :
    ∃ opening depth entries given inner built,
      front = opening ++ .dispatch .createObject depth given.length :: inner ∧
        Visits limit program context opening depth (.createObject entries) given ∧
        runOp limit depth (.createObject entries) given =
          ⟨inner ++ [.objectsBuilt keys objects], .ok built⟩ ∧
        keys = (Fields.keys entries).eraseDups.length ∧ objects = built.context.length := by
  cases h with
  | @objectsBuilt opening inner depth entries given parts hvisits hparts =>
    have hrun : runOp limit depth (.createObject entries) given =
        ⟨inner ++ [.objectsBuilt (candidates parts).length (assemble parts).context.length],
          .ok (assemble parts)⟩ := by
      rw [runOp_createObject, hparts]
      rfl
    refine ⟨opening, depth, entries, given, inner, assemble parts, rfl, hvisits, hrun, ?_, rfl⟩
    have hentries := congrArg outcome hparts
    rw [runEntries_eq_mapM, mapM_outcome] at hentries
    have hkeys : Fields.keys parts = Fields.keys entries :=
      Fields.keys_of_mapM (f := fun part => runAt limit (depth + 1) part given) hentries
    have hcandidates : Fields.keys (candidates parts) = (Fields.keys entries).eraseDups := by
      rw [candidates, Fields.keys_ofList, Fields.keys_mapValues, hkeys]
    rw [← hcandidates, Fields.keys, List.length_map]

/-- The events of an operation are accounted for if those of the programs inside it are. -/
theorem Visits.accounts (h : Visits limit program context front depth op given)
    (hparts : ∀ part ∈ op.parts, ∀ {front : List Event} {given : Context} {inner : List Event},
      Enters limit program context front (depth + 1) part given →
        Notes (enter limit (depth + 1) part given) inner event →
          Accounts limit program context (front ++ inner) event)
    {inner : List Event} (hnotes : Notes (runOp limit depth op given) inner event) :
    Accounts limit program context (front ++ .dispatch op.code depth given.length :: inner) event := by
  rcases notes_runOp hnotes with ⟨access, kind, rfl⟩ | ⟨entries, parts, rfl, hentries, rfl⟩ |
      ⟨earlier, part, handed, within, hcalls, hearlier, rfl, hpart⟩
  · exact .dropped h access kind
  · exact .objectsBuilt h hentries
  · have haccounts := hparts part hcalls.mem_parts (h.enters hcalls hearlier) hpart
    simpa using haccounts

/-- Every event of what a run enters is accounted for. -/
theorem Enters.accounts (h : Enters limit program context front depth part given) {inner : List Event}
    (hnotes : Notes (enter limit depth part given) inner event) :
    Accounts limit program context (front ++ inner) event := by
  refine Program.induction
    (P := fun op => ∀ {front given depth}, Visits limit program context front depth op given →
      ∀ {inner}, Notes (runOp limit depth op given) inner event →
        Accounts limit program context (front ++ .dispatch op.code depth given.length :: inner) event)
    (Q := fun part => ∀ {front given depth}, Enters limit program context front depth part given →
      ∀ {inner}, Notes (enter limit depth part given) inner event →
        Accounts limit program context (front ++ inner) event)
    ?_ ?_ part h hnotes
  · intro op hparts front given depth hvisits inner
    exact hvisits.accounts fun part hpart _ _ _ henters => hparts part hpart henters
  · intro part hops front given depth henters inner hnotes
    obtain ⟨hdepth, hnotes⟩ := notes_enter_iff.mp hnotes
    obtain ⟨before, op, after, first, within, rfl, hbefore, rfl, hevent⟩ := notes_runOps_iff.mp hnotes
    have hvisits : Visits limit program context _ depth op first.context := .intro henters hdepth hbefore
    rw [← List.append_assoc]
    rcases hevent with ⟨rfl, rfl⟩ | ⟨rest, rfl, hop⟩
    · rw [List.append_nil]
      exact .dispatch hvisits
    · exact hops op (List.mem_append_right _ List.mem_cons_self) hvisits hop

end Evaluation

end JsonFilter
