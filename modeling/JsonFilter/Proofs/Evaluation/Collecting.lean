import JsonFilter.Proofs.Evaluation.Arity

/-!
# Arrays that collect results

An array constructor takes a share from each of its programs, all of which run on the same context, and leaves
one array of these shares.  On one value the shares are all that the programs leave, so exploding the array gives
this back.

* `Evaluation.Contributes`: what a program contributes to an array;
* `Program.evaluate_createArray`, `Program.evaluate_createArray_explode`: arrays, and their members;
* `Program.createArray_collects`: when they come about, and what they hold.
-/

namespace JsonFilter

namespace Evaluation

/-! ## Shares -/

/-- What an enclosing array takes from a program: everything if something exploded, and otherwise nothing, the
only value, or one array in which the values are gathered. -/
inductive Contributes : Evaluation → List Value → Prop
  | all (values : Context) : Contributes ⟨values, true⟩ values
  | nothing : Contributes ⟨[], false⟩ []
  | only (value : Value) : Contributes ⟨[value], false⟩ [value]
  | gathered {values : Context} (h : 2 ≤ values.length) : Contributes ⟨values, false⟩ [.array values]

theorem contributes_iff {part : Evaluation} {share : List Value} :
    part.Contributes share ↔ part.outputs = share := by
  constructor
  · rintro (_ | _ | _ | h)
    · rfl
    · rfl
    · rfl
    · rw [outputs, if_neg Bool.false_ne_true, Context.collapse_of_two_le h]
      rfl
  · rintro rfl
    obtain ⟨values, exploded⟩ := part
    cases exploded with
    | true => exact .all values
    | false =>
      rcases values with _ | ⟨value, _ | ⟨second, rest⟩⟩
      · exact .nothing
      · exact .only value
      · exact .gathered (by simp)

/-- The outputs of some programs are the only shares that they contribute. -/
theorem forall₂_contributes_iff {parts : List Evaluation} {shares : List (List Value)} :
    List.Forall₂ Contributes parts shares ↔ parts.map outputs = shares := by
  have hcontributes : Contributes = fun part share => part.outputs = share :=
    funext fun part => funext fun share => propext contributes_iff
  rw [hcontributes, ← List.forall₂_map_left_iff, List.forall₂_eq_eq_eq]

end Evaluation

namespace Program

open Evaluation

variable {elements : List Program} {options : Options}

/-! ## Arrays -/

/-- An array constructor gathers what its programs leave of the context. -/
theorem evaluate_createArray (hdepth : ∀ part ∈ elements, part.nesting < options.maxDepth)
    (context : Context) :
    evaluate [.createArray elements] context options =
      gather <$> elements.mapM fun part => part.evaluate context options := by
  have hnesting : (Op.createArray elements).nesting ≤ options.maxDepth := Op.nesting_le_iff.mpr hdepth
  exact evaluate_singleton hnesting context

/-- Whatever the limit is, an array constructor leaves one array. -/
theorem exists_array_of_evaluate {context : Context} {evaluation : Evaluation}
    (h : evaluate [.createArray elements] context options = .ok evaluation) :
    ∃ items, evaluation.context = [.array items] := by
  have hmeaning := meaning_of_evaluate h
  rw [meaning_singleton] at hmeaning
  obtain ⟨parts, -, rfl⟩ := Traverse.map_eq_ok_iff.mp hmeaning
  exact ⟨_, rfl⟩

/-- An explosion of one value leaves its members. -/
theorem evaluate_explode {value : Value} {members : List Value} (h : value.members? = some members)
    (strict : Bool) (options : Options) :
    evaluate [.explode strict] [value] options = .ok ⟨members, true⟩ := by
  have hone : accessOne .iterate strict Value.members? value = .ok members := by rw [accessOne, h]
  rw [evaluate_singleton (Nat.zero_le _), step, accessEach, List.mapM_cons, hone]
  show Except.ok (ofMembers (members ++ [])) = _
  rw [List.append_nil, ofMembers]

/-- An array constructor around an explosion makes an array of the members. -/
theorem evaluate_createArray_members {value : Value} {members : List Value} (h : value.members? = some members)
    (strict : Bool) (hpositive : 0 < options.maxDepth) :
    evaluate [.createArray [[.explode strict]]] [value] options = .ok ⟨[.array members], true⟩ := by
  have hdepth : ∀ part ∈ [[Op.explode strict]], Program.nesting part < options.maxDepth :=
    List.forall_mem_singleton.mpr hpositive
  rw [evaluate_createArray hdepth, List.mapM_cons, evaluate_explode h]
  show Except.ok (Evaluation.mk [.array (members ++ [])] true) = _
  rw [List.append_nil]

/-- The members of the array are the outputs of its programs. -/
theorem evaluate_createArray_explode (hdepth : ∀ part ∈ elements, part.nesting < options.maxDepth)
    (strict : Bool) (context : Context) :
    evaluate [.createArray elements, .explode strict] context options =
      (fun results => ⟨results.flatMap outputs, true⟩) <$>
        elements.mapM fun part => part.evaluate context options := by
  have happend := evaluate_append [.createArray elements] [.explode strict] context options
  rw [List.singleton_append, evaluate_createArray hdepth] at happend
  rw [happend]
  cases elements.mapM fun part => part.evaluate context options with
  | error e => rfl
  | ok results =>
    have hmembers : (Value.array (results.flatMap outputs)).members? =
        some (results.flatMap outputs) := rfl
    show (gather results).andThen <$> evaluate [.explode strict] (gather results).context options = _
    rw [gather, evaluate_explode hmembers]
    show Except.ok (Evaluation.mk _ (_ || true)) = _
    rw [Bool.or_true]
    rfl

/-- On one value, the outputs of some programs are the values that they leave. -/
theorem flatMap_outputs_of_mapM {value : Value} {results : List Evaluation}
    (h : elements.mapM (fun part => part.evaluate [value] options) = .ok results) :
    results.flatMap outputs = results.flatMap Evaluation.context := by
  refine List.flatMap_congr fun result hresult => ?_
  obtain ⟨part, -, hpart⟩ := Traverse.exists_of_mem_mapM h hresult
  exact outputs_of_meaning (Nat.le_of_eq List.length_singleton) (meaning_of_evaluate hpart)

/-! ## What arrays collect -/

/-- An array constructor and an explosion leave of one value what the programs of the array leave of it, one after
another, and fail for the first of these programs that fails.  On any context, an array constructor leaves one
array, of what each of its programs contributes.  So it undoes an explosion of an array, and makes an array of the
values of an object. -/
theorem createArray_collects (elements : List Program) (value : Value) (context : Context) (strict : Bool)
    (options : Options) (hdepth : ∀ part ∈ elements, part.nesting < options.maxDepth) :
    ((∃ evaluation,
        evaluate [.createArray elements, .explode strict] [value] options = .ok evaluation) ↔
      ∀ part ∈ elements, ∃ result, part.evaluate [value] options = .ok result) ∧
    (∀ evaluation, evaluate [.createArray elements, .explode strict] [value] options = .ok evaluation ↔
      ∃ results,
        List.Forall₂ (fun part result => part.evaluate [value] options = .ok result) elements results ∧
        evaluation = ⟨results.flatMap Evaluation.context, true⟩) ∧
    (∀ e, evaluate [.createArray elements, .explode strict] [value] options = .error e ↔
      ∃ before part after, elements = before ++ part :: after ∧
        (∀ passed ∈ before, ∃ result, passed.evaluate [value] options = .ok result) ∧
        part.evaluate [value] options = .error e) ∧
    (∀ evaluation, evaluate [.createArray elements] context options = .ok evaluation ↔
      ∃ results shares,
        List.Forall₂ (fun part result => part.evaluate context options = .ok result) elements results ∧
        List.Forall₂ Contributes results shares ∧
        evaluation = ⟨[.array shares.flatten], results.any exploded⟩) ∧
    (∀ limit evaluation, evaluate [.createArray elements] context ⟨limit⟩ = .ok evaluation →
      evaluation.context.length = 1) ∧
    (0 < options.maxDepth →
      (∀ items, evaluate [.createArray [[.explode strict]]] [.array items] options =
        .ok ⟨[.array items], true⟩) ∧
      ∀ fields, evaluate [.createArray [[.explode strict]]] [.object fields] options =
        .ok ⟨[.array (fields.map Prod.snd)], true⟩) := by
  have hexplode := evaluate_createArray_explode hdepth strict [value]
  have harray := evaluate_createArray hdepth context
  refine ⟨?_, ?_, ?_, ?_, ?_, ?_⟩
  · rw [hexplode, Traverse.exists_map_eq_ok_iff, Traverse.exists_mapM_iff]
  · intro evaluation
    rw [hexplode, Traverse.map_eq_ok_iff]
    refine exists_congr fun results => ?_
    rw [← Traverse.mapM_eq_ok_iff]
    refine and_congr_right fun hresults => ?_
    rw [flatMap_outputs_of_mapM hresults]
    exact eq_comm
  · intro e
    rw [hexplode, Traverse.map_eq_error_iff, Traverse.mapM_eq_error_iff]
  · intro evaluation
    rw [harray, Traverse.map_eq_ok_iff]
    refine exists_congr fun results => ?_
    rw [Traverse.mapM_eq_ok_iff]
    simp only [forall₂_contributes_iff]
    constructor
    · rintro ⟨hresults, rfl⟩
      exact ⟨_, hresults, rfl, rfl⟩
    · rintro ⟨_, hresults, rfl, rfl⟩
      exact ⟨hresults, rfl⟩
  · intro limit evaluation h
    obtain ⟨items, hitems⟩ := exists_array_of_evaluate h
    rw [hitems, List.length_singleton]
  · intro hpositive
    exact ⟨fun items => evaluate_createArray_members rfl strict hpositive,
      fun fields => evaluate_createArray_members rfl strict hpositive⟩

/-- Two results and none are collected from an array, a failure comes before another one, and two values that
nothing exploded are gathered inside the array. -/
theorem createArray_collects_members :
    evaluate [.createArray [[.explode true], [.pick "a" false, .pick "b" true]], .explode true]
        [.array [.null, .bool true]] {} = .error (.typeMismatch (.pick "b") .null) ∧
    evaluate [.createArray [[.explode true], [.index 1 true]], .explode true]
        [.array [.null, .bool true]] {} = .ok ⟨[.null, .bool true, .bool true], true⟩ ∧
    evaluate [.createArray [[], [.pick "a" false]]] [.null, .bool true] {} =
      .ok ⟨[.array [.array [.null, .bool true]]], false⟩ := by
  refine ⟨?_, ?_, ?_⟩
  · refine ((createArray_collects _ (.array [.null, .bool true]) [] true {} (by decide)).2.2.1 _).mpr ?_
    exact ⟨[[.explode true]], [.pick "a" false, .pick "b" true], [], rfl,
      List.forall_mem_singleton.mpr ⟨⟨[.null, .bool true], true⟩, rfl⟩, rfl⟩
  · refine ((createArray_collects _ (.array [.null, .bool true]) [] true {} (by decide)).2.1 _).mpr ?_
    exact ⟨[⟨[.null, .bool true], true⟩, ⟨[.bool true], false⟩], .cons rfl (.cons rfl .nil), rfl⟩
  · refine ((createArray_collects _ .null [.null, .bool true] true {} (by decide)).2.2.2.1 _).mpr ?_
    exact ⟨[⟨[.null, .bool true], false⟩, ⟨[], false⟩], [[.array [.null, .bool true]], []],
      .cons rfl (.cons rfl .nil), .cons (.gathered (by decide)) (.cons .nothing .nil), rfl⟩

end Program

end JsonFilter
