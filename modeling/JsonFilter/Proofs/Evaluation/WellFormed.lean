import JsonFilter.Proofs.Evaluation.Meaning
import JsonFilter.Proofs.Program.Data
import JsonFilter.Proofs.Value.WellFormed

/-!
# Well-formed results

Evaluation makes no number that is not finite and no object with a repeated name: from well-formed values and
literals come well-formed results.

* `Value.WellFormed.members?`, `Value.WellFormed.slice?`, ...: the parts of well-formed values;
* `Evaluation.WellFormed`: evaluations that leave well-formed values;
* `Evaluation.wellFormed_step`: an operation, if this holds of the programs inside it;
* `Program.wellFormed_of_meaning`: every program.
-/

namespace JsonFilter

/-! ## The parts of values -/

namespace Value.WellFormed

variable {value part : Value}

/-- A part that is not there is null, which is well-formed. -/
theorem getD {part : Option Value} (h : ∀ v ∈ part, v.WellFormed) : (part.getD Value.null).WellFormed := by
  cases part with
  | none => exact .null
  | some v => exact h v rfl

theorem field? {key : String} (hvalue : value.WellFormed) (h : value.field? key = some part) :
    part.WellFormed := by
  cases hvalue with
  | array hitems =>
    obtain rfl := Option.some.inj h
    refine getD fun v hv => hitems v ?_
    obtain ⟨-, hv⟩ := Option.ite_none_right_eq_some.mp (Option.mem_def.mp hv)
    exact List.mem_of_getElem? hv
  | object _ hfields =>
    obtain rfl := Option.some.inj h
    exact getD fun v hv => hfields _ (Fields.mem_of_get? hv)
  | _ => cases h

theorem element? {position : Int} (hvalue : value.WellFormed)
    (h : value.element? position = some part) : part.WellFormed := by
  cases hvalue with
  | array hitems =>
    unfold Value.element? at h
    obtain rfl := Option.some.inj h
    -- Wherever the position points to, the element is an item or null.
    generalize (if position < 0 then _ else _ : Int) = place
    split
    · exact .null
    · exact getD fun v hv => hitems v (List.mem_of_getElem? hv)
  | _ => cases h

theorem slice? {start stop : Option Int} (hvalue : value.WellFormed)
    (h : value.slice? start stop = some part) : part.WellFormed := by
  cases hvalue with
  | array hitems =>
    obtain rfl := Option.some.inj h
    exact .array fun v hv => hitems v (List.mem_of_mem_drop (List.mem_of_mem_take hv))
  | string text =>
    obtain rfl := Option.some.inj h
    exact .string _
  | _ => cases h

theorem members? {parts : List Value} (hvalue : value.WellFormed) (h : value.members? = some parts) :
    ∀ v ∈ parts, v.WellFormed := by
  cases hvalue with
  | array hitems =>
    obtain rfl := Option.some.inj h
    exact hitems
  | object _ hfields =>
    obtain rfl := Option.some.inj h
    exact List.forall_mem_map.mpr hfields
  | _ => cases h

end Value.WellFormed

namespace Evaluation

/-! ## Ways of combining evaluations -/

/-- An evaluation leaves well-formed values. -/
def WellFormed (evaluation : Evaluation) : Prop :=
  ∀ v ∈ evaluation.context, v.WellFormed

theorem WellFormed.outputs {evaluation : Evaluation} (h : evaluation.WellFormed) :
    ∀ v ∈ evaluation.outputs, v.WellFormed := by
  obtain ⟨context, exploded⟩ := evaluation
  cases exploded with
  | true => exact h
  | false =>
    match context, h with
    | [], _ => exact nofun
    | [v], h => exact h
    | v :: w :: rest, h => exact List.forall_mem_singleton.mpr (.array h)

theorem wellFormed_gather {parts : List Evaluation} (h : ∀ part ∈ parts, part.WellFormed) :
    (gather parts).WellFormed := by
  refine List.forall_mem_singleton.mpr (.array fun v hv => ?_)
  obtain ⟨part, hpart, hv⟩ := List.mem_flatMap.mp hv
  exact (h part hpart).outputs v hv

theorem wellFormed_join {before : Evaluation} {branches : List Evaluation}
    (h : ∀ branch ∈ branches, branch.WellFormed) : (before.join branches).WellFormed := by
  intro v hv
  obtain ⟨branch, hbranch, hv⟩ := List.mem_flatMap.mp hv
  exact h branch hbranch v hv

/-- A choice takes its names from the candidates, and a candidate for each. -/
theorem of_mem_combinations {candidates : Fields (List Value)} {choice : Fields Value}
    (h : choice ∈ combinations candidates) :
    Fields.keys choice = Fields.keys candidates ∧
      ∀ field ∈ choice, ∃ candidate ∈ candidates, field.2 ∈ candidate.2 := by
  induction candidates generalizing choice with
  | nil =>
    obtain rfl := List.mem_singleton.mp h
    exact ⟨rfl, nofun⟩
  | cons candidate rest ih =>
    obtain ⟨key, values⟩ := candidate
    rw [combinations_cons] at h
    obtain ⟨value, hvalue, h⟩ := List.mem_flatMap.mp h
    obtain ⟨others, hothers, rfl⟩ := List.mem_map.mp h
    obtain ⟨hkeys, hmembers⟩ := ih hothers
    refine ⟨by rw [Fields.keys_cons, Fields.keys_cons, hkeys], List.forall_mem_cons.mpr ⟨?_, ?_⟩⟩
    · exact ⟨(key, values), List.mem_cons_self, hvalue⟩
    · intro field hfield
      obtain ⟨candidate, hcandidate, hmem⟩ := hmembers field hfield
      exact ⟨candidate, List.mem_cons_of_mem _ hcandidate, hmem⟩

theorem wellFormed_assemble {parts : Fields Evaluation} (h : ∀ part ∈ parts, part.2.WellFormed) :
    (assemble parts).WellFormed := by
  have hcandidates : ∀ candidate ∈ candidates parts, ∀ v ∈ candidate.2, v.WellFormed := by
    refine Fields.forall_mem_ofList (P := fun values : List Value => ∀ v ∈ values, v.WellFormed) ?_
    exact List.forall_mem_map.mpr fun part hpart => (h part hpart).outputs
  intro v hv
  obtain ⟨choice, hchoice, rfl⟩ := List.mem_map.mp hv
  obtain ⟨hkeys, hmembers⟩ := of_mem_combinations hchoice
  refine .object ?_ fun field hfield => ?_
  · rw [hkeys]
    exact Fields.nodup_keys_ofList _
  · obtain ⟨candidate, hcandidate, hmem⟩ := hmembers field hfield
    exact hcandidates candidate hcandidate _ hmem

/-! ## Operations and programs -/

theorem wellFormed_accessEach {access : Access} {strict : Bool}
    {apply : Value → Option (List Value)}
    (happly : ∀ {value : Value} {parts : List Value}, value.WellFormed → apply value = some parts →
      ∀ v ∈ parts, v.WellFormed)
    {context values : Context} (hcontext : ∀ v ∈ context, v.WellFormed)
    (h : accessEach access strict apply context = .ok values) : ∀ v ∈ values, v.WellFormed := by
  obtain ⟨-, rfl⟩ := accessEach_eq_ok_iff.mp h
  intro v hv
  obtain ⟨parts, hparts, hv⟩ := List.mem_flatten.mp hv
  obtain ⟨operand, hoperand, hvalues⟩ := List.mem_filterMap.mp hparts
  exact happly (hcontext operand hoperand) hvalues v hv

theorem wellFormed_single {apply : Value → Option Value}
    (happly : ∀ {value part : Value}, value.WellFormed → apply value = some part → part.WellFormed)
    {value : Value} {parts : List Value} (hvalue : value.WellFormed)
    (h : single apply value = some parts) : ∀ v ∈ parts, v.WellFormed := by
  obtain ⟨part, hpart, rfl⟩ := Option.map_eq_some_iff.mp h
  exact List.forall_mem_singleton.mpr (happly hvalue hpart)

/-- An operation leaves well-formed values if its literal is well-formed and the programs inside it do. -/
theorem wellFormed_step {inner : Runner} {op : Op}
    (hown : ∀ value, op = .literal value → value.WellFormed)
    (hinner : ∀ part ∈ op.parts, ∀ context evaluation, (∀ v ∈ context, v.WellFormed) →
      inner part context = .ok evaluation → evaluation.WellFormed)
    {context : Context} {evaluation : Evaluation} (hcontext : ∀ v ∈ context, v.WellFormed)
    (h : step inner op context = .ok evaluation) : evaluation.WellFormed := by
  cases op with
  | currentContext =>
    obtain rfl := Except.ok.inj h
    exact hcontext
  | literal value =>
    obtain rfl := Except.ok.inj h
    exact List.forall_mem_singleton.mpr (hown value rfl)
  | pick key strict =>
    obtain ⟨values, hvalues, rfl⟩ := Traverse.map_eq_ok_iff.mp h
    exact wellFormed_accessEach (wellFormed_single Value.WellFormed.field?) hcontext hvalues
  | index position strict =>
    obtain ⟨values, hvalues, rfl⟩ := Traverse.map_eq_ok_iff.mp h
    exact wellFormed_accessEach (wellFormed_single Value.WellFormed.element?) hcontext hvalues
  | slice start stop strict =>
    rw [step] at h
    split at h
    · cases h
    · obtain ⟨values, hvalues, rfl⟩ := Traverse.map_eq_ok_iff.mp h
      exact wellFormed_accessEach (wellFormed_single Value.WellFormed.slice?) hcontext hvalues
  | explode strict =>
    obtain ⟨values, hvalues, rfl⟩ := Traverse.map_eq_ok_iff.mp h
    exact wellFormed_accessEach Value.WellFormed.members? hcontext hvalues
  | createArray elements =>
    obtain ⟨parts, hparts, rfl⟩ := Traverse.map_eq_ok_iff.mp h
    refine wellFormed_gather fun part hpart => ?_
    obtain ⟨element, helement, hrun⟩ := Traverse.exists_of_mem_mapM hparts hpart
    exact hinner element helement context part hcontext hrun
  | createObject entries =>
    obtain ⟨parts, hparts, rfl⟩ := Traverse.map_eq_ok_iff.mp h
    refine wellFormed_assemble fun part hpart => ?_
    obtain ⟨entry, hentry, hrun⟩ := Traverse.exists_of_mem_mapM hparts hpart
    obtain ⟨result, hresult, rfl⟩ := Traverse.map_eq_ok_iff.mp hrun
    exact hinner entry.2 (Op.mem_parts_createObject hentry) context result hcontext hresult
  | pipe source target =>
    obtain ⟨before, hbefore, h⟩ := Traverse.bind_eq_ok_iff.mp h
    obtain ⟨branches, hbranches, rfl⟩ := Traverse.map_eq_ok_iff.mp h
    have hsource := hinner source (by simp) context before hcontext hbefore
    refine wellFormed_join fun branch hbranch => ?_
    obtain ⟨value, hvalue, hrun⟩ := Traverse.exists_of_mem_mapM hbranches hbranch
    exact hinner target (by simp) [value] branch
      (List.forall_mem_singleton.mpr (hsource.outputs value hvalue)) hrun

/-- A program leaves well-formed values if its operations do. -/
theorem wellFormed_steps {inner : Runner} {program : Program}
    (hops : ∀ op ∈ program, ∀ context evaluation, (∀ v ∈ context, v.WellFormed) →
      step inner op context = .ok evaluation → evaluation.WellFormed)
    {context : Context} {evaluation : Evaluation} (hcontext : ∀ v ∈ context, v.WellFormed)
    (h : steps inner program context = .ok evaluation) : evaluation.WellFormed := by
  induction program generalizing context evaluation with
  | nil =>
    obtain rfl := Except.ok.inj h
    exact hcontext
  | cons op rest ih =>
    obtain ⟨hop, hrest⟩ := List.forall_mem_cons.mp hops
    obtain ⟨first, hfirst, h⟩ := Traverse.bind_eq_ok_iff.mp h
    obtain ⟨last, hlast, rfl⟩ := Traverse.map_eq_ok_iff.mp h
    have hvalues := hop context first hcontext hfirst
    have hresults : last.WellFormed := ih hrest hvalues hlast
    exact hresults

end Evaluation

namespace Program

/-- The literals of a program are well-formed. -/
def WellFormed (program : Program) : Prop :=
  ∀ value, program.HasLiteral value → value.WellFormed

/-- From well-formed values a program with well-formed literals makes well-formed ones. -/
theorem wellFormed_of_meaning {program : Program} (hprogram : program.WellFormed)
    {context : Context} {evaluation : Evaluation} (hcontext : ∀ v ∈ context, v.WellFormed)
    (h : program.meaning context = .ok evaluation) : evaluation.WellFormed := by
  refine Program.induction
    (P := fun op => (∀ value, op.HasLiteral value → value.WellFormed) → ∀ context evaluation,
      (∀ v ∈ context, v.WellFormed) → Evaluation.step meaning op context = .ok evaluation →
        evaluation.WellFormed)
    (Q := fun program => WellFormed program → ∀ context evaluation,
      (∀ v ∈ context, v.WellFormed) → meaning program context = .ok evaluation →
        evaluation.WellFormed)
    ?_ ?_ program hprogram context evaluation hcontext h
  · intro op hparts hop context evaluation
    obtain ⟨hown, hinside⟩ := Op.forall_hasLiteral_iff.mp hop
    exact Evaluation.wellFormed_step hown fun part hpart => hparts part hpart (hinside part hpart)
  · intro program hops hprogram context evaluation hcontext h
    rw [meaning_eq_steps] at h
    exact Evaluation.wellFormed_steps
      (fun op hop => hops op hop (forall_hasLiteral_iff.mp hprogram op hop)) hcontext h

end Program

end JsonFilter
