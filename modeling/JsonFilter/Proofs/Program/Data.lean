import JsonFilter.Proofs.Fields
import JsonFilter.Proofs.Program.Induction
import JsonFilter.Proofs.Value.Equality

/-!
# The data of programs

Apart from names and positions, the data of a program are its literals and its flags.

* `Program.mapData`: the program with other literals and flags;
* `Program.HasLiteral`: the literals of a program, at any depth;
* `Program.agrees_iff`: equal programs hold no NaN and are the same but for the signs of zeros.
-/

namespace JsonFilter

/-! ## Other literals and flags -/

namespace Op

section MapData

variable (f : Value → Value) (g : Bool → Bool)

mutual

/-- Applies a function to every literal and another to every flag of an operation. -/
def mapData : Op → Op
  | currentContext => currentContext
  | literal value => literal (f value)
  | pick key strict => pick key (g strict)
  | index position strict => index position (g strict)
  | slice start stop strict => slice start stop (g strict)
  | explode strict => explode (g strict)
  | createArray elements => createArray (mapDataElements elements)
  | createObject entries => createObject (mapDataEntries entries)
  | pipe source target => pipe (mapDataOps source) (mapDataOps target)

/-- Applies the functions to the operations of a program. -/
def mapDataOps : List Op → List Op
  | [] => []
  | op :: rest => mapData op :: mapDataOps rest

/-- Applies the functions to the operations of some programs. -/
def mapDataElements : List (List Op) → List (List Op)
  | [] => []
  | ops :: rest => mapDataOps ops :: mapDataElements rest

/-- Applies the functions to the operations of the programs of some entries. -/
def mapDataEntries : List (String × List Op) → List (String × List Op)
  | [] => []
  | (key, ops) :: rest => (key, mapDataOps ops) :: mapDataEntries rest

end

end MapData

end Op

/-- Applies a function to every literal and another to every flag of a program. -/
def Program.mapData (f : Value → Value) (g : Bool → Bool) (program : Program) : Program :=
  Op.mapDataOps f g program

section Equations

variable (f : Value → Value) (g : Bool → Bool)

@[simp] theorem Program.mapData_nil : mapData f g [] = [] := rfl

@[simp] theorem Program.mapData_cons (op : Op) (rest : Program) :
    mapData f g (op :: rest) = op.mapData f g :: mapData f g rest := rfl

theorem Program.mapData_eq_map (program : Program) :
    program.mapData f g = List.map (Op.mapData f g) program := by
  induction program with
  | nil => simp
  | cons op rest ih => rw [mapData_cons, ih, List.map_cons]

namespace Op

@[simp] theorem mapData_currentContext : mapData f g currentContext = currentContext := rfl

@[simp] theorem mapData_literal (value : Value) : mapData f g (literal value) = literal (f value) := rfl

@[simp] theorem mapData_pick (key : String) (strict : Bool) :
    mapData f g (pick key strict) = pick key (g strict) := rfl

@[simp] theorem mapData_index (position : Int) (strict : Bool) :
    mapData f g (index position strict) = index position (g strict) := rfl

@[simp] theorem mapData_slice (start stop : Option Int) (strict : Bool) :
    mapData f g (slice start stop strict) = slice start stop (g strict) := rfl

@[simp] theorem mapData_explode (strict : Bool) :
    mapData f g (explode strict) = explode (g strict) := rfl

@[simp] theorem mapData_createArray (elements : List Program) :
    mapData f g (createArray elements) = createArray (elements.map (Program.mapData f g)) := by
  have helements : mapDataElements f g elements = elements.map (Program.mapData f g) := by
    induction elements with
    | nil => rw [mapDataElements, List.map_nil]
    | cons ops rest ih =>
      rw [mapDataElements, ih, List.map_cons]
      rfl
  rw [mapData, helements]

@[simp] theorem mapData_createObject (entries : List (String × Program)) :
    mapData f g (createObject entries) =
      createObject (Fields.mapValues (Program.mapData f g) entries) := by
  have hentries : mapDataEntries f g entries = Fields.mapValues (Program.mapData f g) entries := by
    induction entries with
    | nil => rw [mapDataEntries, Fields.mapValues_nil]
    | cons entry rest ih =>
      obtain ⟨key, ops⟩ := entry
      rw [mapDataEntries, ih, Fields.mapValues_cons]
      rfl
  rw [mapData, hentries]

@[simp] theorem mapData_pipe (source target : Program) :
    mapData f g (pipe source target) = pipe (source.mapData f g) (target.mapData f g) := rfl

end Op

end Equations

/-- The parts of an operation with other data are its parts with the other data. -/
@[simp] theorem Op.parts_mapData (f : Value → Value) (g : Bool → Bool) (op : Op) :
    (op.mapData f g).parts = op.parts.map (Program.mapData f g) := by
  cases op with
  | createObject entries => simp [Fields.mapValues]
  | _ => simp [parts]

/-- Replacing data twice is replacing them once. -/
theorem Program.mapData_mapData (f f' : Value → Value) (g g' : Bool → Bool) (program : Program) :
    (program.mapData f g).mapData f' g' = program.mapData (f' ∘ f) (g' ∘ g) := by
  refine Program.induction
    (P := fun op => (op.mapData f g).mapData f' g' = op.mapData (f' ∘ f) (g' ∘ g))
    (Q := fun program => (program.mapData f g).mapData f' g' = program.mapData (f' ∘ f) (g' ∘ g))
    ?_ ?_ program
  · intro op hparts
    cases op with
    | createArray elements => simpa using hparts
    | createObject entries =>
      simp only [Op.mapData_createObject, Fields.mapValues_mapValues, Op.createObject.injEq]
      exact Fields.mapValues_inj_left.mpr fun entry hentry =>
        hparts entry.2 (Op.mem_parts_createObject hentry)
    | pipe source target => simp [hparts source (by simp), hparts target (by simp)]
    | _ => simp
  · intro program hops
    simp only [mapData_eq_map, List.map_map]
    exact List.map_congr_left hops

/-! ## Literals -/

/-- A value is a literal of an operation, or of one that stands inside it. -/
inductive Op.HasLiteral (value : Value) : Op → Prop
  | here : HasLiteral value (literal value)
  | inside {op inner : Op} {part : Program} (hpart : part ∈ op.parts) (hinner : inner ∈ part)
      (h : HasLiteral value inner) : HasLiteral value op

/-- A value is a literal of a program, at any depth. -/
def Program.HasLiteral (value : Value) (program : Program) : Prop :=
  ∃ op ∈ program, Op.HasLiteral value op

/-- The literals of an operation that is none itself are those of its parts. -/
theorem Op.HasLiteral.of_part {op : Op} {part : Program} {value : Value} (hpart : part ∈ op.parts)
    (h : part.HasLiteral value) : op.HasLiteral value := by
  obtain ⟨inner, hinner, h⟩ := h
  exact .inside hpart hinner h

/-- All literals of an operation are its own literal or literals of its parts. -/
theorem Op.forall_hasLiteral_iff {p : Value → Prop} {op : Op} :
    (∀ value, op.HasLiteral value → p value) ↔
      (∀ value, op = literal value → p value) ∧
        ∀ part ∈ op.parts, ∀ value, Program.HasLiteral value part → p value := by
  constructor
  · intro h
    constructor
    · rintro value rfl
      exact h value .here
    · exact fun part hpart value hvalue => h value (.of_part hpart hvalue)
  · rintro ⟨hown, hparts⟩ value (_ | ⟨hpart, hinner, h⟩)
    · exact hown value rfl
    · exact hparts _ hpart value ⟨_, hinner, h⟩

/-- All literals of a program are the literals of its operations. -/
theorem Program.forall_hasLiteral_iff {p : Value → Prop} {program : Program} :
    (∀ value, program.HasLiteral value → p value) ↔
      ∀ op ∈ program, ∀ value, Op.HasLiteral value op → p value :=
  ⟨fun h op hop value hvalue => h value ⟨op, hop, hvalue⟩,
    fun h value ⟨op, hop, hvalue⟩ => h op hop value hvalue⟩

/-- The literals of a program with other data are the other values of its literals. -/
theorem Program.forall_hasLiteral_mapData_iff {f : Value → Value} {g : Bool → Bool} {p : Value → Prop}
    {program : Program} : (∀ value, (program.mapData f g).HasLiteral value → p value) ↔
      ∀ value, program.HasLiteral value → p (f value) := by
  refine Program.induction
    (P := fun op => (∀ value, (op.mapData f g).HasLiteral value → p value) ↔
      ∀ value, op.HasLiteral value → p (f value))
    (Q := fun program => (∀ value, (program.mapData f g).HasLiteral value → p value) ↔
      ∀ value, program.HasLiteral value → p (f value))
    ?_ ?_ program
  · intro op hparts
    rw [Op.forall_hasLiteral_iff, Op.forall_hasLiteral_iff (p := fun value => p (f value)),
      Op.parts_mapData, List.forall_mem_map]
    refine and_congr ?_ (forall₂_congr hparts)
    cases op <;> simp
  · intro program hops
    rw [forall_hasLiteral_iff, forall_hasLiteral_iff (p := fun value => p (f value)), mapData_eq_map,
      List.forall_mem_map]
    exact forall₂_congr hops

/-- Functions that do the same to all literals of a program give the same program. -/
theorem Program.mapData_congr {f f' : Value → Value} {g : Bool → Bool} {program : Program} :
    (∀ value, program.HasLiteral value → f value = f' value) →
      program.mapData f g = program.mapData f' g := by
  refine Program.induction
    (P := fun op => (∀ value, op.HasLiteral value → f value = f' value) →
      op.mapData f g = op.mapData f' g)
    (Q := fun program => (∀ value, program.HasLiteral value → f value = f' value) →
      program.mapData f g = program.mapData f' g)
    ?_ ?_ program
  · intro op hparts h
    -- Only a literal has data of this kind of its own; all other operations hand the functions on.
    rw [Op.forall_hasLiteral_iff] at h
    obtain ⟨hown, hinside⟩ := h
    have hparts' : ∀ part ∈ op.parts, Program.mapData f g part = Program.mapData f' g part :=
      fun part hpart => hparts part hpart (hinside part hpart)
    cases op with
    | literal value => simp [hown value rfl]
    | createArray elements => simpa using hparts'
    | createObject entries =>
      rw [Op.mapData_createObject, Op.mapData_createObject, Fields.mapValues_inj_left.mpr]
      exact fun entry hentry => hparts' entry.2 (Op.mem_parts_createObject hentry)
    | pipe source target => simpa using hparts'
    | _ => simp
  · intro program hops h
    rw [mapData_eq_map, mapData_eq_map]
    exact List.map_congr_left fun op hop => hops op hop (forall_hasLiteral_iff.mp h op hop)

/-- Functions that change nothing leave a program as it is. -/
theorem Program.mapData_id (program : Program) : program.mapData id id = program := by
  refine Program.induction (P := fun op => op.mapData id id = op)
    (Q := fun program => program.mapData id id = program) ?_ ?_ program
  · intro op hparts
    cases op with
    | createArray elements =>
      have helements : elements.map (mapData id id) = elements.map id := List.map_congr_left hparts
      rw [Op.mapData_createArray, helements, List.map_id]
    | createObject entries =>
      have hentries : Fields.mapValues (mapData id id) entries = Fields.mapValues id entries :=
        Fields.mapValues_inj_left.mpr fun entry hentry =>
          hparts entry.2 (Op.mem_parts_createObject hentry)
      rw [Op.mapData_createObject, hentries]
      exact congrArg Op.createObject (List.map_id' entries)
    | pipe source target => simp [hparts source (by simp), hparts target (by simp)]
    | _ => simp
  · intro program hops
    rw [mapData_eq_map, List.map_congr_left hops, List.map_id']

/-! ## Leaves of literals -/

/-- Applies a function to every number in a literal of a program and another to every truth value. -/
def Program.mapLeaves (f : Binary64 → Binary64) (g : Bool → Bool) : Program → Program :=
  mapData (Value.mapLeaves f g) id

/-- A number occurs in a literal of a program. -/
def Program.HasNumber (x : Binary64) (program : Program) : Prop :=
  ∃ value, program.HasLiteral value ∧ value.HasNumber x

/-- A function that leaves the numbers in the literals of a program alone leaves the program alone. -/
theorem Program.mapLeaves_eq_self {f : Binary64 → Binary64} {program : Program}
    (h : ∀ x, program.HasNumber x → f x = x) : program.mapLeaves f id = program := by
  have hcongr : program.mapData (Value.mapLeaves f id) id = program.mapData id id := by
    apply mapData_congr
    intro value hvalue
    exact Value.mapLeaves_eq_self_iff.mpr fun x hx => h x ⟨value, hvalue, hx⟩
  exact hcongr.trans (mapData_id program)

/-! ## Equality -/

namespace Program

/-- A program without the signs of zeros in its literals. -/
def unsignZeros : Program → Program :=
  mapData Value.unsignZeros id

/-- No number in a literal of a program is a NaN. -/
def NaNFree (program : Program) : Prop :=
  ∀ value, program.HasLiteral value → value.NaNFree

end Program

namespace Op

variable {elements : List Program} {entries : List (String × Program)}

theorem beqElements_iff {others : List Program}
    (h : ∀ part ∈ elements, ∀ other, beqOps part other = true ↔
      Program.NaNFree part ∧ Program.unsignZeros part = Program.unsignZeros other) :
    beqElements elements others = true ↔
      (∀ part ∈ elements, Program.NaNFree part) ∧
        elements.map Program.unsignZeros = others.map Program.unsignZeros := by
  induction elements generalizing others with
  | nil => cases others <;> simp [beqElements]
  | cons part rest ih =>
    obtain ⟨hpart, hrest⟩ := List.forall_mem_cons.mp h
    cases others with
    | nil => simp [beqElements]
    | cons other others =>
      rw [beqElements, Bool.and_eq_true, hpart, ih hrest, List.forall_mem_cons, List.map_cons,
        List.map_cons, List.cons.injEq]
      exact and_and_and_comm

theorem beqEntries_iff {others : List (String × Program)}
    (h : ∀ entry ∈ entries, ∀ other, beqOps entry.2 other = true ↔
      Program.NaNFree entry.2 ∧ Program.unsignZeros entry.2 = Program.unsignZeros other) :
    beqEntries entries others = true ↔
      (∀ entry ∈ entries, Program.NaNFree entry.2) ∧
        Fields.mapValues Program.unsignZeros entries =
          Fields.mapValues Program.unsignZeros others := by
  induction entries generalizing others with
  | nil => cases others <;> simp [beqEntries, Fields.mapValues]
  | cons entry rest ih =>
    obtain ⟨key, part⟩ := entry
    obtain ⟨hpart, hrest⟩ := List.forall_mem_cons.mp h
    cases others with
    | nil => simp [beqEntries]
    | cons other others =>
      obtain ⟨key', other⟩ := other
      rw [beqEntries, Bool.and_eq_true, Bool.and_eq_true, hpart, ih hrest, List.forall_mem_cons,
        Fields.mapValues_cons, Fields.mapValues_cons, List.cons.injEq, Prod.mk.injEq, beq_iff_eq]
      tauto

/-- Two operations are equal exactly if the first holds no NaN and they are the same but for the signs of
zeros, if this is so of the programs inside them. -/
theorem beq_iff {op other : Op}
    (h : ∀ part ∈ op.parts, ∀ other, beqOps part other = true ↔
      Program.NaNFree part ∧ Program.unsignZeros part = Program.unsignZeros other) :
    beq op other = true ↔
      (∀ value, op.HasLiteral value → value.NaNFree) ∧
        op.mapData Value.unsignZeros id = other.mapData Value.unsignZeros id := by
  rw [forall_hasLiteral_iff]
  cases op with
  | literal value =>
    cases other with
    | literal value' =>
      have hvalue : (value == value') = true ↔ _ := Value.beq_iff
      simp [beq, hvalue, parts]
    | _ => simp [beq]
  | createArray elements =>
    cases other with
    | createArray others =>
      rw [parts_createArray] at h
      rw [beq, beqElements_iff h]
      simp [Program.NaNFree, Program.unsignZeros]
    | _ => simp [beq]
  | createObject entries =>
    cases other with
    | createObject others =>
      rw [beq, beqEntries_iff fun entry hentry => h entry.2 (mem_parts_createObject hentry),
        parts_createObject, List.forall_mem_map]
      simp only [reduceCtorEq, false_implies, implies_true, true_and, mapData_createObject,
        createObject.injEq]
      rfl
    | _ => simp [beq]
  | pipe source target =>
    cases other with
    | pipe source' target' =>
      rw [beq, Bool.and_eq_true, h source (by simp), h target (by simp)]
      simp [Program.NaNFree, Program.unsignZeros]
      tauto
    | _ => simp [beq]
  | _ => cases other <;> simp [beq, parts, and_assoc]

end Op

/-- Two programs are equal exactly if the first holds no NaN and they are the same but for the signs of
zeros. -/
theorem Program.agrees_iff {program other : Program} :
    program.agrees other = true ↔
      program.NaNFree ∧ program.unsignZeros = other.unsignZeros := by
  revert other
  refine Program.induction
    (P := fun op => ∀ {other : Op}, Op.beq op other = true ↔
      (∀ value, op.HasLiteral value → value.NaNFree) ∧
        op.mapData Value.unsignZeros id = other.mapData Value.unsignZeros id)
    (Q := fun program => ∀ {other : Program}, Op.beqOps program other = true ↔
      NaNFree program ∧ unsignZeros program = unsignZeros other)
    ?_ ?_ program
  · intro op hparts other
    exact Op.beq_iff fun part hpart other => hparts part hpart
  · intro program hops other
    rw [NaNFree, forall_hasLiteral_iff, unsignZeros]
    induction program generalizing other with
    | nil => cases other <;> simp [Op.beqOps]
    | cons op rest ih =>
      obtain ⟨hop, hrest⟩ := List.forall_mem_cons.mp hops
      cases other with
      | nil => simp [Op.beqOps]
      | cons op' others =>
        rw [Op.beqOps, Bool.and_eq_true, hop, ih hrest, List.forall_mem_cons, mapData_cons,
          mapData_cons, List.cons.injEq]
        exact and_and_and_comm

end JsonFilter
