import JsonFilter.Program.Basic

/-!
# Induction over programs

A program is a list of operations, and an operation may hold programs: its parts.  What follows for an
operation from its parts, and for a program from its operations, holds of every program.

* `Op.nesting_le_iff`, `Program.nesting_le_iff`: nesting bounds the parts and the operations;
* `Program.induction`: the principle, with one step for an operation and one for a program;
* `Program.Everywhere`: a property of a program and of all programs inside it, however deep;
* `Program.Somewhere`: an operation with a property, at whatever depth;
* `Program.Forces`: operations that a run cannot pass by, as they do not stand in the target of a pipe.
-/

namespace JsonFilter

/-! ## Parts -/

/-- The programs that an operation holds. -/
def Op.parts : Op → List Program
  | createArray elements => elements
  | createObject entries => entries.map Prod.snd
  | pipe source target => [source, target]
  | _ => []

@[simp] theorem Op.parts_createArray (elements : List (List Op)) :
    (createArray elements).parts = elements := rfl

@[simp] theorem Op.parts_createObject (entries : List (String × List Op)) :
    (createObject entries).parts = entries.map Prod.snd := rfl

@[simp] theorem Op.parts_pipe (source target : List Op) :
    (pipe source target).parts = [source, target] := rfl

/-- The program of an entry is a part of the object constructor. -/
theorem Op.mem_parts_createObject {entries : List (String × List Op)} {entry : String × List Op}
    (hentry : entry ∈ entries) : entry.2 ∈ (createObject entries).parts :=
  List.mem_map.mpr ⟨entry, hentry, rfl⟩

/-! ## Nesting -/

theorem Op.nestingElements_le_iff {elements : List (List Op)} {n : Nat} :
    nestingElements elements ≤ n ↔ ∀ part ∈ elements, nestingOps part + 1 ≤ n := by
  induction elements with
  | nil => simp [nestingElements]
  | cons part rest ih => rw [nestingElements, Nat.max_le, ih, List.forall_mem_cons]

theorem Op.nestingEntries_le_iff {entries : List (String × List Op)} {n : Nat} :
    nestingEntries entries ≤ n ↔ ∀ entry ∈ entries, nestingOps entry.2 + 1 ≤ n := by
  induction entries with
  | nil => simp [nestingEntries]
  | cons entry rest ih =>
    obtain ⟨key, ops⟩ := entry
    rw [nestingEntries, Nat.max_le, ih, List.forall_mem_cons]

/-- A bound on the nesting of an operation bounds its parts, one level deeper, and nothing else. -/
theorem Op.nesting_le_iff {op : Op} {n : Nat} :
    op.nesting ≤ n ↔ ∀ part ∈ op.parts, Program.nesting part + 1 ≤ n := by
  cases op with
  | createArray elements => exact nestingElements_le_iff
  | createObject entries =>
    rw [nesting, nestingEntries_le_iff, parts_createObject, List.forall_mem_map]
    rfl
  | pipe source target =>
    rw [nesting, Nat.max_le, parts_pipe, List.forall_mem_cons, List.forall_mem_singleton]
    rfl
  | _ => simp [nesting, parts]

/-- A bound on the nesting of a program bounds its operations and nothing else. -/
theorem Program.nesting_le_iff {program : Program} {n : Nat} :
    program.nesting ≤ n ↔ ∀ op ∈ program, op.nesting ≤ n := by
  induction program with
  | nil => simp [nesting, Op.nestingOps]
  | cons op rest ih =>
    rw [nesting, Op.nestingOps, Nat.max_le, List.forall_mem_cons]
    exact and_congr_right fun _ => ih

/-- A bound on the nesting of two programs one after the other bounds both. -/
theorem Program.nesting_append_le_iff {first second : Program} {n : Nat} :
    nesting (first ++ second) ≤ n ↔ first.nesting ≤ n ∧ second.nesting ≤ n := by
  rw [nesting_le_iff, List.forall_mem_append, ← nesting_le_iff, ← nesting_le_iff]

/-- A part nests less deep than its operation. -/
theorem Op.nesting_part_lt {op : Op} {part : Program} (hpart : part ∈ op.parts) :
    part.nesting < op.nesting :=
  nesting_le_iff.mp (Nat.le_refl _) part hpart

/-- An operation nests no deeper than its program. -/
theorem Program.nesting_op_le {program : Program} {op : Op} (hop : op ∈ program) :
    op.nesting ≤ program.nesting :=
  nesting_le_iff.mp (Nat.le_refl _) op hop

/-! ## The induction principle -/

/-- What follows for each operation from its parts, and for each program from its operations, holds of
every program. -/
theorem Program.induction {P : Op → Prop} {Q : Program → Prop}
    (step : ∀ op : Op, (∀ part ∈ op.parts, Q part) → P op)
    (run : ∀ program : Program, (∀ op ∈ program, P op) → Q program) (program : Program) :
    Q program := by
  apply run
  intro op hop
  apply step
  intro part hpart
  exact induction step run part
termination_by program.nesting
decreasing_by exact Nat.lt_of_lt_of_le (Op.nesting_part_lt hpart) (Program.nesting_op_le hop)

/-! ## Properties of all programs inside a program -/

/-- A property of a program and of all programs inside it. -/
inductive Program.Everywhere (p : Program → Prop) : Program → Prop
  | intro {program : Program} (here : p program)
      (inside : ∀ op ∈ program, ∀ part ∈ op.parts, Everywhere p part) : Everywhere p program

namespace Program.Everywhere

variable {p : Program → Prop} {program : Program}

theorem here (h : Everywhere p program) : p program := by
  cases h with
  | intro here _ => exact here

theorem inside (h : Everywhere p program) {op : Op} (hop : op ∈ program) {part : Program}
    (hpart : part ∈ op.parts) : Everywhere p part := by
  cases h with
  | intro _ inside => exact inside op hop part hpart

end Program.Everywhere

/-! ## Operations somewhere in a program -/

/-- An operation with a property stands in a program or in a program inside it, however deep. -/
inductive Program.Somewhere (p : Op → Prop) : Program → Prop
  | here {program : Program} {op : Op} (hop : op ∈ program) (h : p op) : Somewhere p program
  | inside {program : Program} {op : Op} (hop : op ∈ program) {part : Program}
      (hpart : part ∈ op.parts) (h : Somewhere p part) : Somewhere p program

namespace Program.Somewhere

variable {p q : Op → Prop} {program : Program}

theorem imp (hpq : ∀ op, p op → q op) (h : program.Somewhere p) : program.Somewhere q := by
  induction h with
  | here hop h => exact .here hop (hpq _ h)
  | inside hop hpart _ ih => exact .inside hop hpart ih

theorem exists_op (h : program.Somewhere p) : ∃ op, p op := by
  induction h with
  | here _ h => exact ⟨_, h⟩
  | inside _ _ _ ih => exact ih

end Program.Somewhere

/-! ## Operations that always run -/

/-- The programs that run whenever an operation does: all that it holds but the target of a pipe, which runs
only on what comes out of the source. -/
def Op.forcedParts : Op → List Program
  | createArray elements => elements
  | createObject entries => entries.map Prod.snd
  | pipe source _ => [source]
  | _ => []

/-- An operation has a property, or one that has it runs whenever the operation does. -/
inductive Op.Forces (p : Op → Prop) : Op → Prop
  | here {op : Op} (h : p op) : Forces p op
  | inside {op inner : Op} {part : Program} (hpart : part ∈ op.forcedParts) (hinner : inner ∈ part)
      (h : Forces p inner) : Forces p op

/-- An operation with a property runs whenever a program does. -/
def Program.Forces (p : Op → Prop) (program : Program) : Prop :=
  ∃ op ∈ program, Op.Forces p op

end JsonFilter
