import JsonFilter.Proofs.Evaluation.Meaning
import JsonFilter.Proofs.Json.Reading
import JsonFilter.Proofs.Program.Decoding
import Mathlib.Data.List.Permutation

/-!
# Runs from text to text

A run from text to text fails on its program, on its input or in its evaluation, in this order, and
otherwise gives the texts of the results.  Texts nest too little for a decoded program to reach the limit
on the depth of programs inside each other.

* `Program.nesting_le_of_parse`: how deep programs that are decoded from a text stand inside each other;
* `executeText_eq`: the steps of a run;
* `executeText_outcome`: which outcome a run has.
-/

namespace JsonFilter

/-! ## Decoded programs -/

namespace Program

/-- The nesting of a program that is decoded from a text. -/
theorem nesting_le_of_parse {text : String} {program : Program} (h : parse text = .ok program) :
    program.nesting ≤ 126 := by
  obtain ⟨document, hdocument, h⟩ := parse_eq_ok_iff.mp h
  have hlt := nesting_lt_of_ofJson h
  have hmerge := Json.nesting_mergeKeys_le document
  have hmax := (Json.wellFormed_of_read? hdocument).2
  have hmaxNesting : Json.maxNesting = 127 := rfl
  omega

/-- The default limit is beyond all programs that are decoded from a text. -/
theorem evaluate_eq_meaning_of_parse {text : String} {program : Program}
    (h : parse text = .ok program) (context : Context) :
    program.evaluate context {} = program.meaning context :=
  evaluate_eq_meaning (Nat.le_trans (nesting_le_of_parse h) (by decide)) context

end Program

/-! ## Runs -/

/-- A run decodes the program, reads the input, evaluates, and gives the text of every result. -/
theorem executeText_eq (input program : String) :
    executeText input program =
      match Program.parse program with
      | .error cause => .error (.program cause)
      | .ok decoded =>
        match Value.parse? input with
        | none => .error .input
        | some value =>
          match decoded.evaluate [value] {} with
          | .error e => .error (.evaluation e)
          | .ok evaluation => .ok (evaluation.context.map Value.compactText) := by
  unfold executeText execute Program.run
  cases Program.parse program with
  | error cause => rfl
  | ok decoded =>
    cases Value.parse? input with
    | none => rfl
    | some value =>
      simp only [Traverse.mapError_ok, Traverse.ok_bind, Option.elim_some]
      cases decoded.evaluate [value] {} <;> rfl

/-- A run fails on its program exactly if this does not decode, whatever the input is. -/
theorem executeText_eq_error_program_iff (input program : String) (cause : DecodeError) :
    executeText input program = .error (.program cause) ↔
      Program.parse program = .error cause := by
  rw [executeText_eq]
  cases Program.parse program with
  | error e => simp
  | ok decoded =>
    cases Value.parse? input with
    | none => simp
    | some value => cases h : decoded.evaluate [value] {} <;> simp [h]

/-- A run fails on its input exactly if the program decodes and the input is no document. -/
theorem executeText_eq_error_input_iff (input program : String) :
    executeText input program = .error .input ↔
      (∃ decoded, Program.parse program = .ok decoded) ∧ Value.parse? input = none := by
  rw [executeText_eq]
  cases Program.parse program with
  | error e => simp
  | ok decoded =>
    cases Value.parse? input with
    | none => simp
    | some value => cases h : decoded.evaluate [value] {} <;> simp [h]

section Evaluated

variable {input program : String} {decoded : Program} {value : Value}

/-- With a program and an input, a run fails exactly as the evaluation does. -/
theorem executeText_eq_error_evaluation_iff (hprogram : Program.parse program = .ok decoded)
    (hinput : Value.parse? input = some value) (e : EvalError) :
    executeText input program = .error (.evaluation e) ↔
      decoded.evaluate [value] {} = .error e := by
  rw [executeText_eq, hprogram, hinput]
  cases h : decoded.evaluate [value] {} <;> simp [h]

/-- With a program and an input, a run succeeds exactly if the evaluation does. -/
theorem executeText_eq_ok_iff (hprogram : Program.parse program = .ok decoded)
    (hinput : Value.parse? input = some value) (lines : List String) :
    executeText input program = .ok lines ↔
      ∃ evaluation, decoded.evaluate [value] {} = .ok evaluation ∧
        lines = evaluation.context.map Value.compactText := by
  rw [executeText_eq, hprogram, hinput]
  cases h : decoded.evaluate [value] {} <;> simp [h, eq_comm]

end Evaluated

/-- What fails in the evaluation of a run is decided by its data. -/
theorem ofData_of_executeText {input program : String} {e : EvalError}
    (h : executeText input program = .error (.evaluation e)) : e.OfData := by
  cases hprogram : Program.parse program with
  | error cause => simp [executeText_eq, hprogram] at h
  | ok decoded =>
    cases hinput : Value.parse? input with
    | none => simp [executeText_eq, hprogram, hinput] at h
    | some value =>
      have hevaluate := (executeText_eq_error_evaluation_iff hprogram hinput e).mp h
      rw [Program.evaluate_eq_meaning_of_parse hprogram] at hevaluate
      exact Program.ofData_of_meaning hevaluate

/-- A run of the text of a program on a value never reports the default limit. -/
theorem runText_ne_depthExceeded (program : String) (value : Value) (limit : Nat) :
    runText program value {} ≠ .error (.depthExceeded limit) := by
  intro h
  unfold runText Program.run at h
  cases hprogram : Program.parse program with
  | error cause =>
    rw [hprogram] at h
    cases cause <;> cases h
  | ok decoded =>
    rw [hprogram, Traverse.mapError_ok, Traverse.ok_bind,
      Program.evaluate_eq_meaning_of_parse hprogram] at h
    cases hmeaning : decoded.meaning [value] with
    | error e =>
      rw [hmeaning] at h
      obtain rfl := Except.error.inj h
      exact Program.ofData_of_meaning hmeaning
    | ok evaluation =>
      rw [hmeaning] at h
      cases h

/-- A run from text to text fails on a program that does not decode, whatever the input is, then on an
input that is no document, and otherwise has the outcome of the evaluation, with one line for each result.
Its evaluation fails only on a value of the wrong kind or a slice without bounds: decoded programs stand at
most 126 deep inside each other, so the default limit is reported neither here nor where only the program
is a text. -/
theorem executeText_outcome (input program : String) :
    (∀ cause, executeText input program = .error (.program cause) ↔
      Program.parse program = .error cause) ∧
    (executeText input program = .error .input ↔
      (∃ decoded, Program.parse program = .ok decoded) ∧ Value.parse? input = none) ∧
    (∀ decoded value, Program.parse program = .ok decoded → Value.parse? input = some value →
      (∀ e, executeText input program = .error (.evaluation e) ↔
        decoded.evaluate [value] {} = .error e) ∧
      ∀ lines, executeText input program = .ok lines ↔
        ∃ evaluation, decoded.evaluate [value] {} = .ok evaluation ∧
          lines = evaluation.context.map Value.compactText) ∧
    (∀ e, executeText input program = .error (.evaluation e) →
      (∃ access kind, e = .typeMismatch access kind) ∨ e = .missingSliceBounds) ∧
    (∀ decoded, Program.parse program = .ok decoded → decoded.nesting ≤ 126) ∧
    ({} : Options).maxDepth = 302 ∧
    ∀ value limit, runText program value {} ≠ .error (.depthExceeded limit) := by
  refine ⟨executeText_eq_error_program_iff input program,
    executeText_eq_error_input_iff input program, ?_, ?_, ?_, rfl, ?_⟩
  · intro decoded value hprogram hinput
    exact ⟨executeText_eq_error_evaluation_iff hprogram hinput,
      executeText_eq_ok_iff hprogram hinput⟩
  · intro e h
    exact EvalError.ofData_iff.mp (ofData_of_executeText h)
  · intro decoded h
    exact Program.nesting_le_of_parse h
  · exact runText_ne_depthExceeded program

/-- Members of an array become lines, and an explosion of nothing fails. -/
theorem executeText_outcome_explode :
    executeText "[null,\"a\"]" "\x7b\"op\":\"explode\"\x7d" = .ok ["null", "\"a\""] ∧
    executeText "null" "\x7b\"op\":\"explode\"\x7d" =
      .error (.evaluation (.typeMismatch .iterate .null)) := by
  have hprogram : Program.parse "\x7b\"op\":\"explode\"\x7d" = .ok [.explode true] := by cbv
  have hinput : Value.parse? "[null,\"a\"]" = some (.array [.null, .string "a"]) := by cbv
  have hnull : Value.parse? "null" = some .null := by cbv
  constructor
  · obtain ⟨-, succeeds⟩ := (executeText_outcome _ _).2.2.1 _ _ hprogram hinput
    exact (succeeds _).mpr ⟨⟨[.null, .string "a"], true⟩, rfl, by cbv⟩
  · obtain ⟨fails, -⟩ := (executeText_outcome _ _).2.2.1 _ _ hprogram hnull
    exact (fails _).mpr rfl

end JsonFilter
